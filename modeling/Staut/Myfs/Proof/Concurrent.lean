import Staut.Lib.SlotRing
import Staut.Myfs.Concurrent
import Staut.Myfs.Proof.Exhausted

/-!
# Blocks are handed out once

The free ring as a `SlotRing`: an allocator takes a position and loads it, an unlinker reserves one
and fills it. `Places` says that no block number is in two places, and `RingInv.credit` that the
positions in use fit into the ring: every push gives back a block that its file has counted.

The two loops use no lock in common. `Ordered` is what they would need: no slot is read before it is
written for that round, or written before it is read in the rounds before.
-/

set_option autoImplicit false

namespace Myfs

open CSem Run Cyclic SlotRing

/-- The position whose slot an allocator is about to load. -/
def RingPc.taken : RingPc → Option Nat
  | .allocRead _ _ p => some p
  | _ => none

/-- The position whose slot an unlinker is about to store. -/
def RingPc.reserved : RingPc → Option Nat
  | .unlinkStore _ _ q => some q
  | _ => none

/-- No allocator loads the slot of a position that an unlinker has reserved and not stored, and no
unlinker stores into a slot that an allocator has taken in an earlier round and not loaded. -/
def Ordered (s : RingState) : RingOp → Prop
  | .run fd => (∀ p, (s.pc fd).taken = some p → ∀ u, (s.pc u).reserved ≠ some p) ∧
      ∀ q, (s.pc fd).reserved = some q → ∀ a p, (s.pc a).taken = some p →
        p % NUM_BLOCKS = q % NUM_BLOCKS → q ≤ p
  | _ => True

def RingState.view (s : RingState) : View Int where
  slot := s.sb.freeBlocks
  popped := s.popped
  pushed := s.pushed
  taken := positions RingPc.taken s.pc
  reserved := positions RingPc.reserved s.pc
  filled := s.filled

/-- No block number is in two places, free or held. -/
structure Places (v : View Int) (sb : Superblock) : Prop where
  free : ∀ p p' b, v.Unloaded p → v.Unloaded p' → v.filled p = some b → v.filled p' = some b →
    b = INACTIVE_BLOCK ∨ p = p'
  free_held : ∀ p i k, v.Unloaded p → i < MYFS_MAX_FILES → k < MYFS_MAX_BLOCKS_PER_FILE →
    v.filled p = some ((sb.file i).block k) → (sb.file i).block k = INACTIVE_BLOCK
  held : ∀ i < MYFS_MAX_FILES, ∀ k < MYFS_MAX_BLOCKS_PER_FILE, ∀ i' < MYFS_MAX_FILES,
    ∀ k' < MYFS_MAX_BLOCKS_PER_FILE, (sb.file i).block k = (sb.file i').block k' →
      (sb.file i).block k = INACTIVE_BLOCK ∨ i = i' ∧ k = k'

/-- The positions that a file can still reserve, or has taken and not loaded. -/
def RingPc.credit (f : File) : RingPc → Nat
  | .allocRead _ _ _ => f.counted + 1
  | .unlinkLoad j => f.counted - j
  | .unlinkCas j _ => f.counted - j
  | .unlinkStore j _ _ => f.counted - (j + 1)
  | _ => f.counted

def RingState.credit (s : RingState) (fd : Nat) : Nat := (s.pc fd).credit (s.sb.file fd)

/-- A file with a call in progress. -/
structure Busy (s : RingState) (fd : Nat) : Prop where
  lt : fd < MYFS_MAX_FILES
  name : (s.sb.file fd).name ≠ .empty

def RingPcOk (s : RingState) (fd : Nat) : RingPc → Prop
  | .idle => True
  | .allocLoad k => Busy s fd ∧ k < MYFS_MAX_BLOCKS_PER_FILE
  | .allocCas k _ => Busy s fd ∧ k < MYFS_MAX_BLOCKS_PER_FILE
  | .allocRead k oldVal p => Busy s fd ∧ k < MYFS_MAX_BLOCKS_PER_FILE ∧ oldVal = p % NUM_BLOCKS
  | .unlinkLoad j => Busy s fd ∧ j < (s.sb.file fd).nBlock
  | .unlinkCas j _ => Busy s fd ∧ j < (s.sb.file fd).nBlock
  | .unlinkStore j oldVal q => Busy s fd ∧ j < (s.sb.file fd).nBlock ∧ oldVal = q % NUM_BLOCKS

structure RingInv (s : RingState) : Prop where
  rp : s.sb.freeBlocksRp = s.popped % NUM_BLOCKS
  wp : s.sb.freeBlocksWp = s.pushed % NUM_BLOCKS
  ok : Ok NUM_BLOCKS s.view
  places : Places s.view s.sb
  credit : s.pushed + ∑ i ∈ Finset.range MYFS_MAX_FILES, s.credit i ≤ s.popped + (NUM_BLOCKS - 1)
  pcs : ∀ fd, RingPcOk s fd (s.pc fd)
  taken : ∀ fd fd' p, (s.pc fd).taken = some p → (s.pc fd').taken = some p → fd = fd'
  reserved : ∀ fd fd' p, (s.pc fd).reserved = some p → (s.pc fd').reserved = some p → fd = fd'
  got : ∀ r ∈ s.got, s.filled r.1 = some r.2

section
variable {s s' : RingState} {fd : Nat} {pc : RingPc}

@[simp] theorem ring_goto_pc (s : RingState) (fd : Nat) (pc : RingPc) (i : Nat) :
    (s.goto fd pc).pc i = if i = fd then pc else s.pc i := Function.update_apply _ _ _ _

/-- One summand is exchanged. -/
theorem sum_exchange {c c' : Nat → Nat} {n i : Nat} (hi : i < n) (h : ∀ k, k ≠ i → c' k = c k) :
    ∑ k ∈ Finset.range n, c' k + c i = ∑ k ∈ Finset.range n, c k + c' i := by
  have hmem : i ∈ Finset.range n := Finset.mem_range.2 hi
  have hrest : ∑ k ∈ (Finset.range n).erase i, c' k = ∑ k ∈ (Finset.range n).erase i, c k :=
    Finset.sum_congr rfl fun k hk => h k (Finset.ne_of_mem_erase hk)
  rw [← Finset.add_sum_erase _ _ hmem, ← Finset.add_sum_erase _ c hmem, hrest]
  omega

theorem RingPcOk.congr (h : RingPcOk s fd pc) (hf : s'.sb.file fd = s.sb.file fd) :
    RingPcOk s' fd pc := by
  have hb : Busy s fd → Busy s' fd := fun hb => ⟨hb.lt, by rw [hf]; exact hb.name⟩
  cases pc with
  | idle => trivial
  | allocLoad k => exact ⟨hb h.1, h.2⟩
  | allocCas k oldVal => exact ⟨hb h.1, h.2⟩
  | allocRead k oldVal p => exact ⟨hb h.1, h.2⟩
  | unlinkLoad j => exact ⟨hb h.1, by rw [hf]; exact h.2⟩
  | unlinkCas j oldVal => exact ⟨hb h.1, by rw [hf]; exact h.2⟩
  | unlinkStore j oldVal q => exact ⟨hb h.1, by rw [hf]; exact h.2.1, h.2.2⟩

/-- One file goes on. The ring and its positions change with it, and so does what the file may still
reserve. -/
theorem RingInv.update (fd : Nat) (pc : RingPc) (h : RingInv s) (hfd : fd < MYFS_MAX_FILES)
    (hpc : s'.pc = (s.goto fd pc).pc) (hfile : ∀ i, i ≠ fd → s'.sb.file i = s.sb.file i)
    (hrp : s'.sb.freeBlocksRp = s'.popped % NUM_BLOCKS)
    (hwp : s'.sb.freeBlocksWp = s'.pushed % NUM_BLOCKS) (hok : Ok NUM_BLOCKS s'.view)
    (hplaces : Places s'.view s'.sb)
    (hcredit : s'.pushed + pc.credit (s'.sb.file fd) + s.popped ≤ s'.popped + s.pushed +
      s.credit fd) (hpcok : RingPcOk s' fd pc)
    (htaken : ∀ p, pc.taken = some p → ∀ i, i ≠ fd → (s.pc i).taken ≠ some p)
    (hreserved : ∀ p, pc.reserved = some p → ∀ i, i ≠ fd → (s.pc i).reserved ≠ some p)
    (hgot : ∀ r ∈ s'.got, s'.filled r.1 = some r.2) : RingInv s' := by
  have hself : s'.credit fd = pc.credit (s'.sb.file fd) := by simp [RingState.credit, hpc]
  have hother : ∀ i, i ≠ fd → s'.credit i = s.credit i := by
    intro i hi
    simp [RingState.credit, hpc, hfile i hi, hi]
  refine ⟨hrp, hwp, hok, hplaces, ?_, fun i => ?_, ?_, ?_, hgot⟩
  · have hsum := sum_exchange hfd hother
    have hc := h.credit
    rw [hself] at hsum
    omega
  · rw [hpc, ring_goto_pc]
    split
    · rename_i hi
      rw [hi]
      exact hpcok
    · rename_i hi
      exact (h.pcs i).congr (hfile i hi)
  · rw [hpc]
    exact Unique.update h.taken htaken
  · rw [hpc]
    exact Unique.update h.reserved hreserved

/-! ## The view -/

theorem view_goto (ht : pc.taken = (s.pc fd).taken) (hr : pc.reserved = (s.pc fd).reserved) :
    (s.goto fd pc).view = s.view := by
  simp only [RingState.view, RingState.goto]
  rw [positions_same ht, positions_same hr]

theorem Places.congr {v : View Int} {sb sb' : Superblock} (h : Places v sb)
    (hb : ∀ i k, (sb'.file i).block k = (sb.file i).block k) : Places v sb' where
  free := h.free
  free_held := by
    simp only [hb]
    exact h.free_held
  held := by
    simp only [hb]
    exact h.held

/-- A step that leaves the ring alone. -/
theorem RingInv.quiet {f : File} (h : RingInv s) (hfd : fd < MYFS_MAX_FILES)
    (ht : pc.taken = (s.pc fd).taken) (hr : pc.reserved = (s.pc fd).reserved)
    (hb : ∀ k, f.block k = (s.sb.file fd).block k) (hcredit : pc.credit f ≤ s.credit fd)
    (hpcok : RingPcOk (s.setFile fd f) fd pc) : RingInv ((s.setFile fd f).goto fd pc) := by
  have hview : ((s.setFile fd f).goto fd pc).view = s.view := view_goto (s := s.setFile fd f) ht hr
  have hself : ((s.setFile fd f).goto fd pc).sb.file fd = f := by
    simp [RingState.goto, RingState.setFile]
  refine h.update fd pc hfd rfl ?_ h.rp h.wp ?_ ?_ ?_ ?_ ?_ ?_ h.got
  · intro i hi
    simp [RingState.goto, RingState.setFile, hi]
  · rw [hview]
    exact h.ok
  · rw [hview]
    refine h.places.congr fun i k => ?_
    by_cases hi : i = fd
    · rw [hi, hself, hb]
    · simp [RingState.goto, RingState.setFile, hi]
  · rw [hself]
    show s.pushed + pc.credit f + s.popped ≤ s.popped + s.pushed + s.credit fd
    omega
  · exact hpcok.congr rfl
  · intro p hp i hi hpi
    exact hi (h.taken i fd p hpi (ht ▸ hp))
  · intro p hp i hi hpi
    exact hi (h.reserved i fd p hpi (hr ▸ hp))

theorem setFile_self (s : RingState) (fd : Nat) : s.setFile fd (s.sb.file fd) = s := by
  simp [RingState.setFile, Superblock.setFile]

/-- A step that changes nothing but where its file is. -/
theorem RingInv.move (h : RingInv s) (hfd : fd < MYFS_MAX_FILES) (ht : pc.taken = (s.pc fd).taken)
    (hr : pc.reserved = (s.pc fd).reserved) (hcredit : pc.credit (s.sb.file fd) ≤ s.credit fd)
    (hpcok : RingPcOk s fd pc) : RingInv (s.goto fd pc) := by
  have hq := h.quiet (f := s.sb.file fd) hfd ht hr (fun _ => rfl) hcredit
  rw [setFile_self] at hq
  exact hq hpcok

/-! ## The four steps on the ring -/

/-- An allocator moves the read index. -/
theorem RingInv.take {k oldVal : Nat} (h : RingInv s) (hpc : s.pc fd = .allocCas k oldVal)
    (hrp : s.sb.freeBlocksRp = oldVal) (hlt : s.popped < s.pushed) :
    RingInv ({ s with
      sb := { s.sb with freeBlocksRp := (oldVal + 1) % NUM_BLOCKS }
      popped := s.popped + 1 }.goto fd (.allocRead k oldVal s.popped)) := by
  have hok := h.pcs fd
  rw [hpc] at hok
  have hold : oldVal = s.popped % NUM_BLOCKS := by rw [← hrp, h.rp]
  have hview : RingState.view ({ s with
      sb := { s.sb with freeBlocksRp := (oldVal + 1) % NUM_BLOCKS }
      popped := s.popped + 1 }.goto fd (.allocRead k oldVal s.popped)) = s.view.take := by
    simp only [RingState.view, RingState.goto, View.take]
    rw [positions_insert (g := RingPc.taken) (by rw [hpc]; rfl) rfl,
      positions_same (by rw [hpc]; rfl)]
  refine h.update fd _ hok.1.lt rfl (fun i _ => rfl) ?_ h.wp ?_ ?_ ?_
    ⟨⟨hok.1.lt, hok.1.name⟩, hok.2, hold⟩
    ?_ ?_ h.got
  · show (oldVal + 1) % NUM_BLOCKS = (s.popped + 1) % NUM_BLOCKS
    rw [hold, Nat.mod_add_mod]
  · rw [hview]
    exact h.ok.take hlt
  · rw [hview]
    have hu := fun p => unloaded_take (v := s.view) (p := p) hlt
    refine ⟨fun p p' b hp hp' => ?_, fun p i k hp => ?_, h.places.held⟩
    · exact h.places.free p p' b ((hu p).1 hp) ((hu p').1 hp')
    · exact h.places.free_held p i k ((hu p).1 hp)
  · have hc : s.credit fd = (s.sb.file fd).counted := by rw [RingState.credit, hpc]; rfl
    rw [hc]
    show s.pushed + ((s.sb.file fd).counted + 1) + s.popped ≤ s.popped + 1 + s.pushed +
      (s.sb.file fd).counted
    omega
  · intro p hp i _ hpi
    cases hp
    exact lt_irrefl _ (h.ok.taken_lt s.popped ⟨i, hpi⟩)
  · intro p hp
    cases hp

/-- An unlinker moves the write index. -/
theorem RingInv.reserve {j oldVal : Nat} (h : RingInv s) (hpc : s.pc fd = .unlinkCas j oldVal)
    (hwp : s.sb.freeBlocksWp = oldVal) :
    RingInv ({ s with
      sb := { s.sb with freeBlocksWp := (oldVal + 1) % NUM_BLOCKS }
      pushed := s.pushed + 1 }.goto fd (.unlinkStore j oldVal s.pushed)) := by
  have hok := h.pcs fd
  rw [hpc] at hok
  have hold : oldVal = s.pushed % NUM_BLOCKS := by rw [← hwp, h.wp]
  have hcounted : (s.sb.file fd).counted = (s.sb.file fd).nBlock := if_neg hok.1.name
  have hc : s.credit fd = (s.sb.file fd).counted - j := by rw [RingState.credit, hpc]; rfl
  have hview : RingState.view ({ s with
      sb := { s.sb with freeBlocksWp := (oldVal + 1) % NUM_BLOCKS }
      pushed := s.pushed + 1 }.goto fd (.unlinkStore j oldVal s.pushed)) = s.view.reserve := by
    simp only [RingState.view, RingState.goto, View.reserve]
    rw [positions_same (g := RingPc.taken) (by rw [hpc]; rfl),
      positions_insert (g := RingPc.reserved) (by rw [hpc]; rfl) rfl]
  -- the block that is given back is counted, so the ring is not full
  have hroom : s.view.pushed < s.view.popped + NUM_BLOCKS := by
    have hle := Finset.single_le_sum (f := s.credit) (fun _ _ => Nat.zero_le _)
      (Finset.mem_range.2 hok.1.lt)
    have hcr := h.credit
    have hj := hok.2
    show s.pushed < s.popped + NUM_BLOCKS
    omega
  refine h.update fd _ hok.1.lt rfl (fun i _ => rfl) h.rp ?_ ?_ ?_ ?_
    ⟨⟨hok.1.lt, hok.1.name⟩, hok.2, hold⟩
    ?_ ?_ h.got
  · show (oldVal + 1) % NUM_BLOCKS = (s.pushed + 1) % NUM_BLOCKS
    rw [hold, Nat.mod_add_mod]
  · rw [hview]
    exact h.ok.reserve hroom
  · rw [hview]
    have hu : ∀ p b, s.view.reserve.Unloaded p → s.filled p = some b → s.view.Unloaded p := by
      intro p b hp hb
      refine (unloaded_reserve hp).resolve_left fun hpp => ?_
      have hnone : s.filled s.pushed = none := h.ok.filled_pushed
      rw [hpp] at hb
      exact absurd hb (by rw [show s.view.pushed = s.pushed from rfl, hnone]; simp)
    refine ⟨fun p p' b hp hp' hb hb' => ?_, fun p i k hp hi hk hb => ?_, h.places.held⟩
    · exact h.places.free p p' b (hu p b hp hb) (hu p' b hp' hb') hb hb'
    · exact h.places.free_held p i k (hu p _ hp hb) hi hk hb
  · rw [hc]
    show s.pushed + 1 + ((s.sb.file fd).counted - (j + 1)) + s.popped ≤
      s.popped + s.pushed + ((s.sb.file fd).counted - j)
    have hj := hok.2
    omega
  · intro p hp
    cases hp
  · intro p hp i _ hpi
    cases hp
    exact lt_irrefl _ (h.ok.unloaded_lt (h.ok.unloaded s.pushed ⟨i, hpi⟩))

/-- An entry of the ring's window goes to a file. -/
theorem Places.load (fd k : Nat) {v : View Int} {sb sb' : Superblock} {p : Nat} {b : Int}
    (h : Places v sb) (hok : Ok NUM_BLOCKS v) (hp : p ∈ v.taken) (hb : v.filled p = some b)
    (hblock : ∀ i l, (sb'.file i).block l = if i = fd ∧ l = k then b else (sb.file i).block l) :
    Places (v.load p) sb' := by
  have hup : v.Unloaded p := .inr hp
  -- no other entry of the ring and no file has `b`
  have hheld : ∀ i < MYFS_MAX_FILES, ∀ l < MYFS_MAX_BLOCKS_PER_FILE, (sb.file i).block l = b →
      b = INACTIVE_BLOCK := by
    intro i hi l hl heq
    rw [← heq]
    exact h.free_held p i l hup hi hl (by rw [heq, hb])
  refine ⟨fun p₁ p₂ c h₁ h₂ => ?_, fun p₁ i l h₁ hi hl hc => ?_, ?_⟩
  · exact h.free p₁ p₂ c (hok.unloaded_load hp h₁).1 (hok.unloaded_load hp h₂).1
  · obtain ⟨hu, hne⟩ := hok.unloaded_load hp h₁
    rw [hblock] at hc ⊢
    split at hc
    · rename_i hil
      rw [if_pos hil]
      exact (h.free p₁ p b hu hup hc hb).resolve_right hne
    · rename_i hil
      rw [if_neg hil]
      exact h.free_held p₁ i l hu hi hl hc
  · intro i hi l hl i' hi' l' hl' heq
    rw [hblock, hblock] at heq
    rw [hblock]
    split at heq
    · rename_i h₁
      rw [if_pos h₁]
      split at heq
      · rename_i h₂
        exact .inr ⟨h₁.1.trans h₂.1.symm, h₁.2.trans h₂.2.symm⟩
      · exact .inl (hheld i' hi' l' hl' heq.symm)
    · rename_i h₁
      rw [if_neg h₁]
      split at heq
      · rw [heq]
        exact .inl (hheld i hi l hl heq)
      · exact h.held i hi l hl i' hi' l' hl' heq

/-- An allocator loads the slot that it has taken. -/
theorem RingInv.read {k oldVal p : Nat} (h : RingInv s) (hpc : s.pc fd = .allocRead k oldVal p)
    (hord : ∀ u, (s.pc u).reserved ≠ some p) : RingInv ((s.read fd k oldVal p).goto fd .idle) := by
  have hok := h.pcs fd
  rw [hpc] at hok
  obtain ⟨hbusy, hk, hold⟩ := hok
  have htaken : p ∈ s.view.taken := ⟨fd, by rw [hpc]; rfl⟩
  have hres : p ∉ s.view.reserved := fun ⟨u, hu⟩ => hord u hu
  have hfill : s.view.filled p = some (s.sb.freeBlocks oldVal) := by
    rw [h.ok.load_eq htaken hres, hold]
    rfl
  have hview : ((s.read fd k oldVal p).goto fd .idle).view = s.view.load p := by
    simp only [RingState.view, RingState.goto, RingState.read, RingState.setFile, View.load]
    rw [positions_remove h.taken (by rw [hpc]; rfl) rfl, positions_same (by rw [hpc]; rfl)]
    rfl
  refine h.update fd _ hbusy.lt rfl ?_ h.rp h.wp ?_ ?_ ?_ trivial ?_ ?_ ?_
  · intro i hi
    simp [RingState.goto, RingState.read, RingState.setFile, hi]
  · rw [hview]
    exact h.ok.load htaken hres
  · rw [hview]
    refine h.places.load fd k h.ok htaken hfill fun i l => ?_
    by_cases hi : i = fd
    · simp [RingState.goto, RingState.read, RingState.setFile, hi]
    · simp [RingState.goto, RingState.read, RingState.setFile, hi]
  · have hc : s.credit fd = (s.sb.file fd).counted + 1 := by rw [RingState.credit, hpc]; rfl
    have hcounted : (s.sb.file fd).counted = (s.sb.file fd).nBlock := if_neg hbusy.name
    have hnew : RingPc.idle.credit (((s.read fd k oldVal p).goto fd .idle).sb.file fd) ≤
        (s.sb.file fd).nBlock + 1 := by
      simp only [RingPc.credit, RingState.goto, RingState.read, RingState.setFile,
        setFile_file, ↓reduceIte, File.counted]
      split
      · omega
      · exact Nat.mod_le _ _
    show s.pushed + _ + s.popped ≤ s.popped + s.pushed + s.credit fd
    omega
  · intro p hp
    cases hp
  · intro p hp
    cases hp
  · intro r hr
    rcases List.mem_append.1 hr with hr | hr
    · exact h.got r hr
    · rw [List.mem_singleton.1 hr]
      exact hfill

/-- A block of a file goes to the ring. -/
theorem Places.fill (fd j : Nat) {v : View Int} {sb sb' : Superblock} {q : Nat} (h : Places v sb)
    (hfd : fd < MYFS_MAX_FILES) (hj : j < MYFS_MAX_BLOCKS_PER_FILE)
    (hblock : ∀ i l, (sb'.file i).block l =
      if i = fd ∧ l = j then INACTIVE_BLOCK else (sb.file i).block l) :
    Places (v.fill NUM_BLOCKS q ((sb.file fd).block j)) sb' := by
  have hfilled : ∀ p c, (v.fill NUM_BLOCKS q ((sb.file fd).block j)).filled p = some c →
      p = q ∧ c = (sb.file fd).block j ∨ p ≠ q ∧ v.filled p = some c := by
    intro p c hc
    by_cases hpq : p = q
    · simp only [View.fill, hpq, Function.update_self, Option.some.injEq] at hc
      exact .inl ⟨hpq, hc.symm⟩
    · exact .inr ⟨hpq, by simpa [View.fill, hpq] using hc⟩
  refine ⟨fun p p' b hp hp' hb hb' => ?_, fun p i k hp hi hk hc => ?_, ?_⟩
  · rcases hfilled p b hb with ⟨hpq, hbq⟩ | ⟨-, hb⟩
    · rcases hfilled p' b hb' with ⟨hpq', -⟩ | ⟨-, hb'⟩
      · exact .inr (hpq.trans hpq'.symm)
      · rw [hbq] at hb' ⊢
        exact .inl (h.free_held p' fd j hp' hfd hj hb')
    · rcases hfilled p' b hb' with ⟨-, hbq⟩ | ⟨-, hb'⟩
      · rw [hbq] at hb ⊢
        exact .inl (h.free_held p fd j hp hfd hj hb)
      · exact h.free p p' b hp hp' hb hb'
  · rw [hblock] at hc ⊢
    split at hc
    · rename_i hij
      rw [if_pos hij]
    · rename_i hij
      rw [if_neg hij]
      rcases hfilled p _ hc with ⟨-, heq⟩ | ⟨-, hc⟩
      · exact (h.held i hi k hk fd hfd j hj heq).resolve_right hij
      · exact h.free_held p i k hp hi hk hc
  · intro i hi l hl i' hi' l' hl' heq
    rw [hblock, hblock] at heq
    rw [hblock]
    split at heq
    · rename_i h₁
      exact .inl (if_pos h₁)
    · rename_i h₁
      rw [if_neg h₁]
      split at heq
      · exact .inl heq
      · exact h.held i hi l hl i' hi' l' hl' heq

/-- An unlinker stores into the slot that it has reserved. -/
theorem RingInv.store {j oldVal q : Nat} {f : File} (pc : RingPc) (h : RingInv s)
    (hpc : s.pc fd = .unlinkStore j oldVal q) (hj : j < MYFS_MAX_BLOCKS_PER_FILE)
    (hord : ∀ a p, (s.pc a).taken = some p → p % NUM_BLOCKS = q % NUM_BLOCKS → q ≤ p)
    (ht : pc.taken = none) (hr : pc.reserved = none)
    (hf : ∀ l, f.block l = if l = j then INACTIVE_BLOCK else (s.sb.file fd).block l)
    (hcredit : pc.credit f ≤ (s.sb.file fd).nBlock - (j + 1))
    (hpcok : RingPcOk (s.setFile fd f) fd pc) :
    RingInv (((s.store fd j oldVal q).setFile fd f).goto fd pc) := by
  have hok := h.pcs fd
  rw [hpc] at hok
  obtain ⟨hbusy, -, hold⟩ := hok
  have hres : q ∈ s.view.reserved := ⟨fd, by rw [hpc]; rfl⟩
  have hord' : ∀ p ∈ s.view.taken, p % NUM_BLOCKS = q % NUM_BLOCKS → q ≤ p :=
    fun p ⟨a, ha⟩ => hord a p ha
  have hview : (((s.store fd j oldVal q).setFile fd f).goto fd pc).view =
      s.view.fill NUM_BLOCKS q ((s.sb.file fd).block j) := by
    simp only [RingState.view, RingState.goto, RingState.store, RingState.setFile, View.fill, hold]
    rw [positions_same (by rw [hpc, ht]; rfl), positions_remove h.reserved (by rw [hpc]; rfl) hr]
    rfl
  have hself : (((s.store fd j oldVal q).setFile fd f).goto fd pc).sb.file fd = f := by
    simp [RingState.goto, RingState.setFile]
  refine h.update fd pc hbusy.lt rfl ?_ h.rp h.wp ?_ ?_ ?_ ?_ ?_ ?_ ?_
  · intro i hi
    simp [RingState.goto, RingState.store, RingState.setFile, hi]
  · rw [hview]
    exact h.ok.fill hres hord'
  · rw [hview]
    refine h.places.fill fd j hbusy.lt hj fun i l => ?_
    by_cases hi : i = fd
    · rw [hi, hself, hf]
      simp
    · simp [RingState.goto, RingState.store, RingState.setFile, hi]
  · have hc : s.credit fd = (s.sb.file fd).counted - (j + 1) := by rw [RingState.credit, hpc]; rfl
    have hcounted : (s.sb.file fd).counted = (s.sb.file fd).nBlock := if_neg hbusy.name
    rw [hself]
    show s.pushed + pc.credit f + s.popped ≤ s.popped + s.pushed + s.credit fd
    omega
  · refine hpcok.congr ?_
    rw [hself]
    simp [RingState.setFile]
  · intro p hp
    rw [ht] at hp
    cases hp
  · intro p hp
    rw [hr] at hp
    cases hp
  · intro r hr'
    have hg := h.got r hr'
    show Function.update s.filled q (some ((s.sb.file fd).block j)) r.1 = some r.2
    rw [Function.update_of_ne]
    · exact hg
    · intro hrq
      have hnone : s.filled q = none := h.ok.filled_none q hres
      rw [hrq, hnone] at hg
      cases hg

/-! ## Runs -/

theorem store_file (s : RingState) (fd j oldVal q : Nat) :
    (s.store fd j oldVal q).sb.file fd = (s.sb.file fd).setBlock j INACTIVE_BLOCK := by
  simp [RingState.store]

theorem RingInv.unlinkStore {j oldVal q : Nat} (h : RingInv s)
    (hpc : s.pc fd = .unlinkStore j oldVal q) (hj : j < MYFS_MAX_BLOCKS_PER_FILE)
    (hord : ∀ a p, (s.pc a).taken = some p → p % NUM_BLOCKS = q % NUM_BLOCKS → q ≤ p) :
    RingInv ((s.store fd j oldVal q).unlinkFrom fd (j + 1)) := by
  have hok := h.pcs fd
  rw [hpc] at hok
  have hbusy := hok.1
  have hn : ((s.store fd j oldVal q).sb.file fd).nBlock = (s.sb.file fd).nBlock := by
    rw [store_file]
    rfl
  unfold RingState.unlinkFrom
  rw [hn]
  split
  · rename_i hlt
    have hst := h.store (.unlinkLoad (j + 1)) (f := (s.sb.file fd).setBlock j INACTIVE_BLOCK) hpc hj
      hord rfl rfl (fun l => by simp) ?_ ?_
    · rw [← store_file s fd j oldVal q, setFile_self] at hst
      exact hst
    · simp only [RingPc.credit, File.counted, File.setBlock, hbusy.name, ↓reduceIte, le_refl]
    · refine ⟨⟨hbusy.lt, ?_⟩, ?_⟩
      · simpa [RingState.setFile, File.setBlock] using hbusy.name
      · simpa [RingState.setFile, File.setBlock] using hlt
  · rw [store_file]
    apply h.store .idle hpc hj hord rfl rfl
    · intro l
      simp [File.setBlock, Function.update_apply]
    · simp [RingPc.credit, File.counted]
    · trivial

theorem RingInv.run (h : RingInv s) (hord : Ordered s (.run fd)) (hr : s.run fd = some s') :
    RingInv s' := by
  obtain ⟨htaken, hreserved⟩ := hord
  have hok := h.pcs fd
  have hcr : s.credit fd = (s.pc fd).credit (s.sb.file fd) := rfl
  unfold RingState.run at hr
  cases hpc : s.pc fd with
  | idle => simp [hpc] at hr
  | allocLoad k =>
    rw [hpc] at hok hcr
    simp only [hpc, Option.some.injEq] at hr
    subst hr
    exact h.move hok.1.lt (by rw [hpc]; rfl) (by rw [hpc]; rfl) hcr.ge hok
  | allocCas k oldVal =>
    rw [hpc] at hok hcr
    simp only [hpc] at hr
    split at hr
    · rename_i hrp
      split at hr
      · rename_i hlt
        cases hr
        exact h.take hpc hrp hlt
      · cases hr
    · cases hr
      exact h.move hok.1.lt (by rw [hpc]; rfl) (by rw [hpc]; rfl) hcr.ge hok
  | allocRead k oldVal p =>
    simp only [hpc] at hr
    split at hr
    · cases hr
    · cases hr
      exact h.read hpc (htaken p (by rw [hpc]; rfl))
  | unlinkLoad j =>
    rw [hpc] at hok hcr
    simp only [hpc, Option.some.injEq] at hr
    subst hr
    exact h.move hok.1.lt (by rw [hpc]; rfl) (by rw [hpc]; rfl) hcr.ge hok
  | unlinkCas j oldVal =>
    rw [hpc] at hok hcr
    simp only [hpc] at hr
    split at hr
    · rename_i hwp
      cases hr
      exact h.reserve hpc hwp
    · cases hr
      exact h.move hok.1.lt (by rw [hpc]; rfl) (by rw [hpc]; rfl) hcr.ge hok
  | unlinkStore j oldVal q =>
    simp only [hpc] at hr
    split at hr
    · rename_i hj
      cases hr
      exact h.unlinkStore hpc hj (hreserved q (by rw [hpc]; rfl))
    · cases hr

/-- A free slot has no call in progress. -/
theorem RingInv.idle_of_unnamed (h : RingInv s) (hn : (s.sb.file fd).name = .empty) :
    s.pc fd = .idle := by
  have hok := h.pcs fd
  have hnot : ¬ Busy s fd := fun hb => hb.name hn
  cases hpc : s.pc fd with
  | idle => rfl
  | allocLoad k => exact absurd (hpc ▸ hok : RingPcOk s fd (.allocLoad k)).1 hnot
  | allocCas k oldVal => exact absurd (hpc ▸ hok : RingPcOk s fd (.allocCas k oldVal)).1 hnot
  | allocRead k oldVal p => exact absurd (hpc ▸ hok : RingPcOk s fd (.allocRead k oldVal p)).1 hnot
  | unlinkLoad j => exact absurd (hpc ▸ hok : RingPcOk s fd (.unlinkLoad j)).1 hnot
  | unlinkCas j oldVal => exact absurd (hpc ▸ hok : RingPcOk s fd (.unlinkCas j oldVal)).1 hnot
  | unlinkStore j oldVal q =>
    exact absurd (hpc ▸ hok : RingPcOk s fd (.unlinkStore j oldVal q)).1 hnot

theorem goto_self (s : RingState) (fd : Nat) (hpc : s.pc fd = pc) : s.goto fd pc = s := by
  simp [RingState.goto, ← hpc]

theorem RingInv.step {op : RingOp} (h : RingInv s) (hord : Ordered s op)
    (hr : s.step op = some s') :
    RingInv s' := by
  cases op with
  | «open» fd filename =>
    simp only [RingState.step] at hr
    split at hr
    · rename_i hfd
      cases hr
      have hpc := h.idle_of_unnamed hfd.2.1
      have hq : RingInv ((s.setFile fd { s.sb.file fd with name := filename, nBlock := 0 }).goto fd
          .idle) :=
        h.quiet hfd.1 (by rw [hpc]) (by rw [hpc]) (fun _ => rfl)
          (by simp [RingPc.credit, File.counted]) trivial
      rw [goto_self] at hq
      · exact hq
      · exact hpc
    · cases hr
  | alloc fd k =>
    simp only [RingState.step] at hr
    split at hr
    · rename_i hpc
      split at hr
      · rename_i hfd
        cases hr
        have hc : s.credit fd = (s.sb.file fd).counted := by rw [RingState.credit, hpc]; rfl
        exact h.move hfd.1 (by rw [hpc]; rfl) (by rw [hpc]; rfl) hc.ge ⟨⟨hfd.1, hfd.2.1⟩, hfd.2.2.1⟩
      · cases hr
    · cases hr
  | unlink fd =>
    simp only [RingState.step] at hr
    split at hr
    · rename_i hpc
      split at hr
      · rename_i hfd
        cases hr
        have hc : s.credit fd = (s.sb.file fd).counted := by rw [RingState.credit, hpc]; rfl
        unfold RingState.unlinkFrom
        split
        · rename_i hlt
          exact h.move hfd.1 (by rw [hpc]; rfl) (by rw [hpc]; rfl) hc.ge ⟨⟨hfd.1, hfd.2⟩, hlt⟩
        · apply h.quiet hfd.1 (by rw [hpc]) (by rw [hpc])
          · intro k
            rfl
          · simp [RingPc.credit, File.counted]
          · trivial
      · cases hr
    · cases hr
  | run fd => exact h.run hord hr

theorem positions_idle {g : RingPc → Option Nat} {pcs : Nat → RingPc} (hg : g .idle = none)
    (hpc : ∀ i, pcs i = .idle) : ∀ p, p ∉ positions g pcs :=
  positions_none fun i => by rw [hpc, hg]

/-- A position of the free window, counted from its start. -/
theorem unloaded_init (h : ring.init s) {p : Nat} (hp : s.view.Unloaded p) :
    ∃ m < cycLen NUM_BLOCKS s.sb.freeBlocksRp s.sb.freeBlocksWp, p = s.sb.freeBlocksRp + m ∧
      s.filled p = some (s.sb.freeBlocks ((s.sb.freeBlocksRp + m) % NUM_BLOCKS)) := by
  obtain ⟨-, hpc, hpop, hpush, hfill, -⟩ := h
  have hw : s.popped ≤ p ∧ p < s.pushed := hp.resolve_right (positions_idle rfl hpc p)
  refine ⟨p - s.sb.freeBlocksRp, by omega, by omega, ?_⟩
  rw [hfill, if_pos hw, show s.sb.freeBlocksRp + (p - s.sb.freeBlocksRp) = p by omega]

theorem ok_init (h : ring.init s) : Ok NUM_BLOCKS s.view := by
  have hunl := fun p => unloaded_init (p := p) h
  obtain ⟨hc, hpc, hpop, hpush, hfill, -⟩ := h
  have hlen : cycLen NUM_BLOCKS s.sb.freeBlocksRp s.sb.freeBlocksWp < NUM_BLOCKS :=
    cycLen_lt NUM_BLOCKS_pos
  have htaken : ∀ p, p ∉ s.view.taken := positions_idle rfl hpc
  have hreserved : ∀ p, p ∉ s.view.reserved := positions_idle rfl hpc
  refine ⟨?_, ?_, ?_, ?_, ?_, ?_, ?_, ?_, ?_⟩
  · show s.popped ≤ s.pushed
    omega
  · show s.pushed ≤ s.popped + NUM_BLOCKS
    omega
  · exact fun p hp => absurd hp (htaken p)
  · intro p hp
    by_contra hlt
    exact hp ((hfill p).trans (if_neg fun hw => hlt hw.2))
  · exact fun p hp => absurd hp (hreserved p)
  · intro p hp _
    obtain ⟨m, -, -, hf⟩ := hunl p hp
    show s.filled p ≠ none
    rw [hf]
    simp
  · exact fun p hp => absurd hp (hreserved p)
  · exact fun p hp => absurd hp (htaken p)
  · intro p b hp hb
    obtain ⟨m, -, hpm, hf⟩ := hunl p hp
    rw [show s.view.filled p = s.filled p from rfl, hf] at hb
    rw [hpm]
    exact Option.some.inj hb

theorem places_init (h : ring.init s) : Places s.view s.sb := by
  have hunl := fun p => unloaded_init (p := p) h
  have hc : Consistent s.sb := h.1
  refine ⟨fun p p' b hp hp' hb hb' => ?_, fun p i k hp hi hk hb => ?_, hc.held⟩
  · obtain ⟨m, hm, hpm, hf⟩ := hunl p hp
    obtain ⟨m', hm', hpm', hf'⟩ := hunl p' hp'
    have e : s.sb.freeBlocks ((s.sb.freeBlocksRp + m) % NUM_BLOCKS) = b := Option.some.inj (hf ▸ hb)
    have e' : s.sb.freeBlocks ((s.sb.freeBlocksRp + m') % NUM_BLOCKS) = b :=
      Option.some.inj (hf' ▸ hb')
    rcases hc.free m hm m' hm' (e.trans e'.symm) with hi | heq
    · exact .inl (e.symm.trans hi)
    · exact .inr (by rw [hpm, hpm', heq])
  · obtain ⟨m, hm, hpm, hf⟩ := hunl p hp
    exact hc.free_held m hm i hi k hk (Option.some.inj (hf ▸ hb)).symm

theorem RingInv.init (h : ring.init s) : RingInv s := by
  have hok := ok_init h
  have hplaces := places_init h
  obtain ⟨hc, hpc, hpop, hpush, -, hgot⟩ := h
  have hcredit : ∀ i, s.credit i = (s.sb.file i).counted := by
    intro i
    rw [RingState.credit, hpc]
    rfl
  refine ⟨?_, ?_, hok, hplaces, ?_, fun fd => ?_, fun fd fd' p hp => ?_, fun fd fd' p hp => ?_, ?_⟩
  · rw [hpop, Nat.mod_eq_of_lt hc.rp_lt]
  · rw [hpush, hpop, add_cycLen hc.rp_lt hc.wp_lt]
  · have hroom := hc.room
    simp only [hcredit]
    omega
  · rw [hpc]
    trivial
  · rw [hpc] at hp
    cases hp
  · rw [hpc] at hp
    cases hp
  · rw [hgot]
    simp

theorem ringInv_of_reach (h : ring.ReachIf Ordered s) : RingInv s :=
  LTS.ReachIf.induct (fun _ hs => RingInv.init hs) (fun _ _ _ hi hord hs => hi.step hord hs) h

/-- **Handed out once**: in every run in which no slot is read before it is written for that round,
or written before it is read in the rounds before, every allocator gets what was stored for the
position that it took, and no block number is in two files. -/
theorem handed_out_once (h : ring.ReachIf Ordered s) :
    (∀ r ∈ s.got, s.filled r.1 = some r.2) ∧
    ∀ i < MYFS_MAX_FILES, ∀ k < MYFS_MAX_BLOCKS_PER_FILE, ∀ i' < MYFS_MAX_FILES,
      ∀ k' < MYFS_MAX_BLOCKS_PER_FILE, (s.sb.file i).block k = (s.sb.file i').block k' →
        (s.sb.file i).block k = INACTIVE_BLOCK ∨ i = i' ∧ k = k' :=
  ⟨(ringInv_of_reach h).got, (ringInv_of_reach h).places.held⟩

end

/-! ## A full store -/

section
variable {C : RingState → RingOp → Prop} {s s' : RingState}

theorem ring_next (op : RingOp) (h : ring.ReachIf C s) (hc : C s op) (hs : s.step op = some s') :
    ring.ReachIf C s' := h.step hc hs

/-- An allocator that is not disturbed does what `myfs_get_lba` does in one step. -/
theorem reach_alloc (fd k : Nat) (h : ring.ReachIf C s) (hpc : s.pc fd = .idle)
    (hfd : fd < MYFS_MAX_FILES) (hname : (s.sb.file fd).name ≠ .empty)
    (hk : k < MYFS_MAX_BLOCKS_PER_FILE) (hblock : (s.sb.file fd).block k = INACTIVE_BLOCK)
    (hlt : s.popped < s.pushed) (hne : s.sb.freeBlocks s.sb.freeBlocksRp ≠ INACTIVE_BLOCK)
    (hC : ∀ s' op, (∀ i, i ≠ fd → s'.pc i = s.pc i) → (s'.pc fd).reserved = none → C s' op) :
    ring.ReachIf C { s with
      sb := allocBlock s.sb fd k
      popped := s.popped + 1
      got := s.got ++ [(s.popped, s.sb.freeBlocks s.sb.freeBlocksRp)] } := by
  have h1 : ring.ReachIf C (s.goto fd (.allocLoad k)) := by
    apply ring_next (.alloc fd k) h
    · exact hC _ _ (fun _ _ => rfl) (by rw [hpc]; rfl)
    · simp only [RingState.step, hpc]
      exact if_pos ⟨hfd, hname, hk, hblock⟩
  have h2 : ring.ReachIf C (s.goto fd (.allocCas k s.sb.freeBlocksRp)) := by
    apply ring_next (.run fd) h1
    · exact hC _ _ (fun i hi => by simp [hi]) (by simp [RingPc.reserved])
    · simp [RingState.step, RingState.run, RingState.goto]
  have h3 : ring.ReachIf C ({ s with
      sb := { s.sb with freeBlocksRp := (s.sb.freeBlocksRp + 1) % NUM_BLOCKS }
      popped := s.popped + 1 }.goto fd (.allocRead k s.sb.freeBlocksRp s.popped)) := by
    apply ring_next (.run fd) h2
    · exact hC _ _ (fun i hi => by simp [hi]) (by simp [RingPc.reserved])
    · simp [RingState.step, RingState.run, RingState.goto, hlt]
  apply ring_next (.run fd) h3
  · exact hC _ _ (fun i hi => by simp [hi]) (by simp [RingPc.reserved])
  · simp [RingState.step, RingState.run, RingState.goto, RingState.read,
      RingState.setFile, allocBlock, hne, ← hpc]

/-- An unlinker up to the store of its first block. -/
theorem reach_reserve (fd : Nat) (h : ring.ReachIf C s) (hpc : s.pc fd = .idle)
    (hfd : fd < MYFS_MAX_FILES) (hname : (s.sb.file fd).name ≠ .empty)
    (hn : 0 < (s.sb.file fd).nBlock)
    (hC : ∀ s' op, (∀ i, i ≠ fd → s'.pc i = s.pc i) → (s'.pc fd).taken = none →
      (s'.pc fd).reserved = none → C s' op) :
    ring.ReachIf C ({ s with
      sb := { s.sb with freeBlocksWp := (s.sb.freeBlocksWp + 1) % NUM_BLOCKS }
      pushed := s.pushed + 1 }.goto fd (.unlinkStore 0 s.sb.freeBlocksWp s.pushed)) := by
  have h1 : ring.ReachIf C (s.goto fd (.unlinkLoad 0)) := by
    apply ring_next (.unlink fd) h
    · exact hC _ _ (fun _ _ => rfl) (by rw [hpc]; rfl) (by rw [hpc]; rfl)
    · simp only [RingState.step, hpc, RingState.unlinkFrom, hn, ↓reduceIte]
      exact if_pos ⟨hfd, hname⟩
  have h2 : ring.ReachIf C (s.goto fd (.unlinkCas 0 s.sb.freeBlocksWp)) := by
    apply ring_next (.run fd) h1
    · exact hC _ _ (fun i hi => by simp [hi]) (by simp [RingPc.taken]) (by simp [RingPc.reserved])
    · simp [RingState.step, RingState.run, RingState.goto]
  apply ring_next (.run fd) h2
  · exact hC _ _ (fun i hi => by simp [hi]) (by simp [RingPc.taken]) (by simp [RingPc.reserved])
  · simp [RingState.step, RingState.run, RingState.goto]

end

/-- A store whose blocks are all taken, by the first six files in order. The last entry of the ring
was never written. -/
def fullSb : Superblock where
  magic := MYFS_MAGIC
  freeBlocks i := if i < NUM_BLOCKS - 1 then (i : Int) else 0
  freeBlocksRp := NUM_BLOCKS - 1
  freeBlocksWp := NUM_BLOCKS - 1
  file i :=
    { name := if i < 6 then runName i else .empty
      block := fun k =>
        if i * MYFS_MAX_BLOCKS_PER_FILE + k < NUM_BLOCKS - 1 then
          ((i * MYFS_MAX_BLOCKS_PER_FILE + k : Nat) : Int)
        else INACTIVE_BLOCK
      nBlock := min MYFS_MAX_BLOCKS_PER_FILE (NUM_BLOCKS - 1 - i * MYFS_MAX_BLOCKS_PER_FILE) }

theorem fullSb_consistent : Consistent fullSb := by
  have hN := NUM_BLOCKS_eq
  have hM := MYFS_MAX_BLOCKS_PER_FILE_eq
  have hF := MYFS_MAX_FILES_eq
  have hlen : cycLen NUM_BLOCKS fullSb.freeBlocksRp fullSb.freeBlocksWp = 0 :=
    (cycLen_eq_zero (by simp only [fullSb]; omega) (by simp only [fullSb]; omega)).2 rfl
  refine ⟨by simp only [fullSb]; omega, by simp only [fullSb]; omega, ?_, ?_, ?_, ?_⟩
  · rw [hlen, Nat.zero_add]
    have hsum : ∑ i ∈ Finset.range MYFS_MAX_FILES, (fullSb.file i).counted =
        ∑ i ∈ Finset.range 6, (fullSb.file i).counted := by
      symm
      apply Finset.sum_subset
      · intro i hi
        rw [Finset.mem_range] at hi ⊢
        omega
      · intro i _ hi
        rw [Finset.mem_range] at hi
        simp [File.counted, fullSb, hi]
    have hcount : ∀ i < 6, (fullSb.file i).counted =
        min MYFS_MAX_BLOCKS_PER_FILE (NUM_BLOCKS - 1 - i * MYFS_MAX_BLOCKS_PER_FILE) := by
      intro i hi
      simp [File.counted, fullSb, hi, runName_ne]
    rw [hsum, Finset.sum_congr rfl fun i hi => hcount i (Finset.mem_range.1 hi), hN, hM]
    simp [Finset.sum_range_succ]
  · intro m hm
    rw [hlen] at hm
    omega
  · intro m hm
    rw [hlen] at hm
    omega
  · intro i hi k hk i' hi' k' hk' heq
    simp only [fullSb] at heq ⊢
    split at heq
    · rename_i h1
      split at heq
      · rename_i h2
        right
        rw [hM] at heq hk hk'
        omega
      · rename_i h2
        rw [if_pos h1]
        exact .inl heq
    · rename_i h1
      exact .inl (if_neg h1)

/-- The full store, with no call in progress. -/
def fullStore : RingState where
  sb := fullSb
  pc := fun _ => .idle
  popped := NUM_BLOCKS - 1
  pushed := NUM_BLOCKS - 1
  filled := fun _ => none
  got := []

theorem reach_fullStore (C : RingState → RingOp → Prop) : ring.ReachIf C fullStore := by
  have hN := NUM_BLOCKS_eq
  have hlt : NUM_BLOCKS - 1 < NUM_BLOCKS := by omega
  refine .init ⟨fullSb_consistent, fun _ => rfl, rfl, ?_, fun p => ?_, rfl⟩
  · have hlen : cycLen NUM_BLOCKS fullSb.freeBlocksRp fullSb.freeBlocksWp = 0 :=
      (cycLen_eq_zero hlt hlt).2 rfl
    show NUM_BLOCKS - 1 = NUM_BLOCKS - 1 + cycLen NUM_BLOCKS fullSb.freeBlocksRp fullSb.freeBlocksWp
    omega
  · rw [if_neg]
    · rfl
    · intro hw
      have h1 : NUM_BLOCKS - 1 ≤ p := hw.1
      have h2 : p < NUM_BLOCKS - 1 := hw.2
      omega

/-- File 0 is unlinked, and has not stored its first block yet. -/
def fullReserved : RingState :=
  { fullStore with
    sb := { fullSb with freeBlocksWp := (NUM_BLOCKS - 1 + 1) % NUM_BLOCKS }
    pushed := NUM_BLOCKS - 1 + 1 }.goto 0 (.unlinkStore 0 (NUM_BLOCKS - 1) (NUM_BLOCKS - 1))

theorem fullSb_name {i : Nat} (hi : i < 6) : (fullSb.file i).name ≠ .empty := by
  simp [fullSb, hi, runName_ne]

theorem fullSb_first : (fullSb.file 0).block 0 = 0 := by
  have hN := NUM_BLOCKS_eq
  have hlt : 0 * MYFS_MAX_BLOCKS_PER_FILE + 0 < NUM_BLOCKS - 1 := by omega
  simp only [fullSb, hlt, ↓reduceIte]
  simp

theorem fullSb_last : (fullSb.file 5).block 131071 = INACTIVE_BLOCK := by
  have hN := NUM_BLOCKS_eq
  have hM := MYFS_MAX_BLOCKS_PER_FILE_eq
  have hlt : ¬ 5 * MYFS_MAX_BLOCKS_PER_FILE + 131071 < NUM_BLOCKS - 1 := by omega
  simp only [fullSb, hlt, ↓reduceIte]

theorem reach_fullReserved {C : RingState → RingOp → Prop}
    (hC : ∀ s' op, (∀ i, i ≠ 0 → s'.pc i = .idle) → (s'.pc 0).taken = none →
      (s'.pc 0).reserved = none → C s' op) : ring.ReachIf C fullReserved := by
  have hN := NUM_BLOCKS_eq
  have hM := MYFS_MAX_BLOCKS_PER_FILE_eq
  have hF := MYFS_MAX_FILES_eq
  apply reach_reserve 0 (reach_fullStore C) rfl (by omega) (fullSb_name (by decide)) ?_ hC
  show 0 < min MYFS_MAX_BLOCKS_PER_FILE (NUM_BLOCKS - 1 - 0 * MYFS_MAX_BLOCKS_PER_FILE)
  omega

/-- Nobody is about to load a slot that somebody else is about to store. -/
theorem ordered_of_none {s : RingState} {op : RingOp}
    (h : (∀ i, (s.pc i).taken = none) ∨ ∀ i, (s.pc i).reserved = none) : Ordered s op := by
  cases op with
  | run fd =>
    constructor
    · intro p hp u hu
      rcases h with h | h
      · rw [h] at hp
        cases hp
      · rw [h] at hu
        cases hu
    · intro q hq a p hp
      rcases h with h | h
      · rw [h] at hp
        cases hp
      · rw [h] at hq
        cases hq
  | _ => trivial

/-- File 0 has stored its first block. -/
def fullFilled : RingState :=
  (fullReserved.store 0 0 (NUM_BLOCKS - 1) (NUM_BLOCKS - 1)).goto 0 (.unlinkLoad 1)

theorem reach_fullFilled : ring.ReachIf Ordered fullFilled := by
  have hN := NUM_BLOCKS_eq
  have hM := MYFS_MAX_BLOCKS_PER_FILE_eq
  have hnone : ∀ i, i ≠ 0 → (fullReserved.pc i) = .idle := fun i hi => by
    simp [fullReserved, fullStore, hi]
  have h : ring.ReachIf Ordered fullReserved := by
    apply reach_fullReserved
    intro s' op hpc ht _
    refine ordered_of_none (.inl fun i => ?_)
    by_cases hi : i = 0
    · rw [hi, ht]
    · rw [hpc i hi]
      rfl
  apply ring_next (.run 0) h
  · refine ordered_of_none (.inl fun i => ?_)
    by_cases hi : i = 0
    · rw [hi]
      rfl
    · rw [hnone i hi]
      rfl
  · have hpc : fullReserved.pc 0 = .unlinkStore 0 (NUM_BLOCKS - 1) (NUM_BLOCKS - 1) := rfl
    have hn : ((fullReserved.store 0 0 (NUM_BLOCKS - 1) (NUM_BLOCKS - 1)).sb.file 0).nBlock =
        MYFS_MAX_BLOCKS_PER_FILE := by
      rw [store_file]
      show min MYFS_MAX_BLOCKS_PER_FILE (NUM_BLOCKS - 1 - 0 * MYFS_MAX_BLOCKS_PER_FILE) = _
      omega
    simp only [RingState.step, RingState.run, hpc, RingState.unlinkFrom, hn, Nat.zero_add]
    rw [if_pos (by omega), if_pos (by omega)]
    rfl

/-- In the right order: the allocator takes the slot after the unlinker has stored. -/
theorem handed_out_once_full : ∃ s, ring.ReachIf Ordered s ∧ s.got = [(NUM_BLOCKS - 1, 0)] ∧
    (∀ r ∈ s.got, s.filled r.1 = some r.2) ∧ (s.sb.file 5).block 131071 = 0 := by
  have hM := MYFS_MAX_BLOCKS_PER_FILE_eq
  have hF := MYFS_MAX_FILES_eq
  have hfree : fullFilled.sb.freeBlocks fullFilled.sb.freeBlocksRp = 0 := by
    show Function.update fullSb.freeBlocks (NUM_BLOCKS - 1) ((fullSb.file 0).block 0)
      (NUM_BLOCKS - 1) = 0
    rw [Function.update_self, fullSb_first]
  have hfile : fullFilled.sb.file 5 = fullSb.file 5 := by
    simp [fullFilled, RingState.goto, RingState.store, fullReserved, fullStore]
  have h := reach_alloc 5 131071 reach_fullFilled rfl (by omega)
    (by rw [hfile]; exact fullSb_name (by decide))
    (by omega) (by rw [hfile]; exact fullSb_last) (Nat.lt_succ_self _) (by rw [hfree]; decide) ?_
  · refine ⟨_, h, ?_, (handed_out_once h).1, ?_⟩
    · show [] ++ [(fullFilled.popped, fullFilled.sb.freeBlocks fullFilled.sb.freeBlocksRp)] = _
      rw [hfree]
      rfl
    · show ((allocBlock fullFilled.sb 5 131071).file 5).block 131071 = 0
      rw [allocBlock_file, if_pos rfl, setBlock_block, if_pos rfl]
      exact hfree
  · intro s' op hpc hr
    refine ordered_of_none (.inr fun i => ?_)
    by_cases hi : i = 5
    · rw [hi, hr]
    · rw [hpc i hi]
      by_cases hi0 : i = 0
      · rw [hi0]
        rfl
      · simp [fullFilled, RingState.store, fullReserved, fullStore, hi0, RingPc.reserved]

/-- The unlinker of file 0 has moved the write index and not stored yet. An allocator takes the
slot, and gets what was in it: block 0, which file 0 still holds. -/
theorem handed_out_twice : ∃ s, ring.Reach s ∧ (s.sb.file 0).block 0 = 0 ∧
    (s.sb.file 5).block 131071 = 0 ∧ s.got = [(NUM_BLOCKS - 1, 0)] ∧
    s.filled (NUM_BLOCKS - 1) = none := by
  have hM := MYFS_MAX_BLOCKS_PER_FILE_eq
  have hF := MYFS_MAX_FILES_eq
  have hfree : fullReserved.sb.freeBlocks fullReserved.sb.freeBlocksRp = 0 :=
    if_neg (Nat.lt_irrefl (NUM_BLOCKS - 1))
  have h := reach_alloc (C := fun _ _ => True) 5 131071
    (reach_fullReserved fun _ _ _ _ _ => trivial) rfl (by omega) (fullSb_name (by decide))
      (by omega)
    fullSb_last (Nat.lt_succ_self _) (by rw [hfree]; decide) fun _ _ _ _ => trivial
  refine ⟨_, h, ?_, ?_, ?_, rfl⟩
  · show ((allocBlock fullReserved.sb 5 131071).file 0).block 0 = 0
    rw [allocBlock_file, if_neg (by decide)]
    exact fullSb_first
  · show ((allocBlock fullReserved.sb 5 131071).file 5).block 131071 = 0
    rw [allocBlock_file, if_pos rfl, setBlock_block, if_pos rfl]
    exact hfree
  · show [] ++ [(fullReserved.popped, fullReserved.sb.freeBlocks fullReserved.sb.freeBlocksRp)] = _
    rw [hfree]
    rfl

end Myfs

import Staut.Backup.Proof.Xfer
import Staut.Backup.Proof.Finish

/-!
# The loops of the two programs

`At`: what holds of the local variables in both programs. `Loop` has the steps that the two have in
common, `AppendStep` and `ParseStep` all their steps on the memory; `appendNext_req` and the like
say when they make a request or a check. `Tool.left` goes down with each of them.

`image`: the bytes of the blocks in the order of the loops, up to a file, a block and a buffer.
-/

set_option autoImplicit false

namespace Backup

open CSem Run Myfs Nvme

/-! ## Units of a block -/

/-- Where buffer `j` of block `b` is. -/
def spotOf (cfg : Cfg) (b : Int) (j : Nat) : Nat × Nat := Hook.place cfg b (BUF_SIZE * j)

theorem lba_eq (b : Int) {j : Nat} (hj : j < DEG) :
    wrap64 ((lbaBase b + 0 + 8 * j : Nat) : Int) = lbaOf b (BUF_SIZE * j) := by
  rw [DEG_eq] at hj
  unfold lbaOf lbaBase
  rw [MYFS_BLOCK_SIZE_eq, BUF_SIZE_eq]
  congr 2
  omega

theorem request_asks (cfg : Cfg) (sb : Superblock) (buf : Nat) (opc : Opc) {t : Tool}
    (h0 : t.offset = 0) (hj : t.j < DEG) : Asks cfg opc buf (spotOf cfg (t.blk sb)) t.j
    (t.request sb buf opc) := by
  refine ⟨rfl, rfl, rfl, rfl, ?_⟩
  unfold Tool.request
  dsimp only
  rw [h0, lba_eq _ hj]
  unfold spotOf Hook.place
  refine Prod.ext rfl ?_
  dsimp only
  rw [BUF_SIZE_eq]
  omega

theorem request_fits {sb : Superblock} {buf : Nat} {opc : Opc} (ho : opc = .read ∨ opc = .write)
    (t : Tool) : (t.request sb buf opc).Fits :=
  ⟨ho, show 1 ≤ BUF_SIZE / 512 by decide, show BUF_SIZE / 512 * 512 ≤ BLKSZ by decide,
    show BUF_SIZE ≤ BUF_SIZE / 512 * 512 by decide⟩

/-- The bytes of a block are those of its buffers. -/
theorem place_spot (cfg : Cfg) (b : Int) (o : Nat) : Hook.place cfg b o =
    ((spotOf cfg b (o / BUF_SIZE)).1, (spotOf cfg b (o / BUF_SIZE)).2 + o % BUF_SIZE) := by
  have hadd := @Hook.place_add cfg b (BUF_SIZE * (o / BUF_SIZE)) (o % BUF_SIZE) (by
    rw [BUF_SIZE_eq]
    omega)
  rw [Nat.div_add_mod] at hadd
  exact hadd

theorem div_lt_DEG {o : Nat} (h : o < MYFS_BLOCK_SIZE) : o / BUF_SIZE < DEG := by
  rw [MYFS_BLOCK_SIZE_eq] at h
  rw [DEG_eq, BUF_SIZE_eq]
  omega

/-! ## The steps -/

/-- The steps that the two programs have in common. -/
inductive Loop (sb : Superblock) (t : Tool) : Tool → Prop
  | skip : t.pc = .main → t.i < MYFS_MAX_FILES → (sb.file t.i).name = .empty →
      Loop sb t { t with i := t.i + 1 }
  | enter : t.pc = .main → t.i < MYFS_MAX_FILES → (sb.file t.i).name ≠ .empty →
      Loop sb t { t with pc := .block, iBlock := 0 }
  | leave : t.pc = .block → ¬ (t.iBlock : Int) < wrap32 (sb.file t.i).nBlock →
      Loop sb t { t with pc := .main, i := t.i + 1 }
  | sweep : t.pc = .offset → t.offset < MYFS_BLOCK_SIZE / 512 →
      Loop sb t { t with pc := .req, j := 0 }
  | swept : t.pc = .offset → ¬ t.offset < MYFS_BLOCK_SIZE / 512 →
      Loop sb t { t with pc := .wait, j := 0 }
  | asked : t.pc = .req → ¬ t.j < DEG →
      Loop sb t { t with pc := .offset, offset := t.offset + 8 * DEG }
  | waited : t.pc = .wait → ¬ t.j < DEG → Loop sb t { t with pc := .block, iBlock := t.iBlock + 1 }

/-- `append` on its memory. -/
inductive AppendStep (sb : Superblock) (buf : Nat) (t : Tool) (mem : Nat → UInt8) :
    Tool → (Nat → UInt8) → Prop
  | loop {t' : Tool} : Loop sb t t' → AppendStep sb buf t mem t' mem
  | body : t.pc = .block → (t.iBlock : Int) < wrap32 (sb.file t.i).nBlock →
      AppendStep sb buf t mem { t with pc := .offset, offset := 0 } mem
  | file : t.pc = .file → AppendStep sb buf t mem { t with
      pc := .wait
      j := t.j + 1
      ssd := t.ssd ++ load mem (buf + BUF_SIZE * t.j) BUF_SIZE } mem

/-- `parse` on its memory. -/
inductive ParseStep (sb : Superblock) (buf : Nat) (t : Tool) (mem : Nat → UInt8) :
    Tool → (Nat → UInt8) → Prop
  | loop {t' : Tool} : Loop sb t t' → ParseStep sb buf t mem t' mem
  | body : t.pc = .block → (t.iBlock : Int) < wrap32 (sb.file t.i).nBlock →
      ParseStep sb buf t mem { t with pc := .file, j := 0 } mem
  | fill : t.pc = .file → t.j < DEG → BUF_SIZE ≤ t.ssd.length → ParseStep sb buf t mem { t with
      pc := .file
      j := t.j + 1
      ssd := t.ssd.drop BUF_SIZE } (store mem (buf + BUF_SIZE * t.j) (t.ssd.take BUF_SIZE))
  | filled : t.pc = .file → ¬ t.j < DEG →
      ParseStep sb buf t mem { t with pc := .offset, offset := 0 } mem

/-- A request for buffer `j` has returned `rid`. -/
def Tool.took (t : Tool) (rid : Int) : Tool :=
  { t with pc := .req, rid := Function.update t.rid t.j rid, j := t.j + 1 }

/-- An access outside the block table. -/
def OffTable (sb : Superblock) (t : Tool) : Prop :=
  t.pc = .block ∧ (t.iBlock : Int) < wrap32 (sb.file t.i).nBlock ∧
    ¬ t.iBlock < MYFS_MAX_BLOCKS_PER_FILE

/-- A read at the end of the backup file. -/
def AtEnd (t : Tool) : Prop := t.pc = .file ∧ t.j < DEG ∧ t.ssd.length < BUF_SIZE

/-- What a program does next, with its steps on its memory, `answered` after a check that answers 1,
and `stuck` when it cannot go on. -/
inductive Next (sb : Superblock) (buf : Nat) (opc : Opc) (t answered : Tool) (stuck : Prop)
    (Step : (Nat → UInt8) → Tool → (Nat → UInt8) → Prop) : Eff → Prop
  | act {f : (Nat → UInt8) → Option (Tool × (Nat → UInt8))} :
      (∀ mem t' mem', f mem = some (t', mem') → Step mem t' mem') → (∀ mem, f mem = none → stuck) →
      Next sb buf opc t answered stuck Step (.act f)
  | req : t.pc = .req → t.j < DEG → Next sb buf opc t answered stuck Step
      (.req (t.request sb buf opc) t.took)
  | check : t.pc = .wait → t.j < DEG →
      Next sb buf opc t answered stuck Step (.check (t.rid t.j) fun b => if b then answered else t)
  | ret : t.pc = .main → ¬ t.i < MYFS_MAX_FILES → Next sb buf opc t answered stuck Step .ret

section
variable {sb : Superblock} {buf : Nat} {opc : Opc} {t answered : Tool} {stuck : Prop}
  {Step : (Nat → UInt8) → Tool → (Nat → UInt8) → Prop}

theorem next_go {t' : Tool} (h : ∀ mem, Step mem t' mem) :
    Next sb buf opc t answered stuck Step (.go t') := by
  refine .act (fun mem u mem' hf => ?_) nofun
  cases hf
  exact h mem

section
variable (hloop : ∀ mem t', Loop sb t t' → Step mem t' mem)
include hloop

theorem main_next (hpc : t.pc = .main) : Next sb buf opc t answered stuck Step (t.main sb) := by
  unfold Tool.main
  split
  · rename_i hi
    split
    · rename_i hne
      exact next_go fun mem => hloop mem _ (.enter hpc hi hne)
    · rename_i he
      exact next_go fun mem => hloop mem _ (.skip hpc hi (Classical.not_not.1 he))
  · rename_i hi
    exact .ret hpc hi

theorem block_next {body : Tool} (hpc : t.pc = .block) (hstuck : OffTable sb t → stuck)
    (hbody : ∀ mem, (t.iBlock : Int) < wrap32 (sb.file t.i).nBlock → Step mem body mem) :
    Next sb buf opc t answered stuck Step (t.block sb body) := by
  unfold Tool.block
  split
  · rename_i hlt
    split
    · exact next_go fun mem => hbody mem hlt
    · rename_i hmax
      exact .act nofun fun _ _ => hstuck ⟨hpc, hlt, hmax⟩
  · rename_i hlt
    exact next_go fun mem => hloop mem _ (.leave hpc hlt)

theorem offsets_next (hpc : t.pc = .offset) : Next sb buf opc t answered stuck Step t.offsets := by
  unfold Tool.offsets
  split
  · rename_i hlt
    exact next_go fun mem => hloop mem _ (.sweep hpc hlt)
  · rename_i hlt
    exact next_go fun mem => hloop mem _ (.swept hpc hlt)

theorem requests_next (hpc : t.pc = .req) :
    Next sb buf opc t answered stuck Step (t.requests sb buf opc) := by
  unfold Tool.requests
  split
  · rename_i hlt
    have htook : (fun rid => { t with rid := Function.update t.rid t.j rid, j := t.j + 1 }) =
      t.took := by
      unfold Tool.took
      rw [← hpc]
    rw [htook]
    exact .req hpc hlt
  · rename_i hlt
    exact next_go fun mem => hloop mem _ (.asked hpc hlt)

end

theorem appendNext_next (sb : Superblock) (buf : Nat) (t : Tool) :
    Next sb buf .read t { t with pc := .file } (OffTable sb t) (AppendStep sb buf t)
      (appendNext sb buf t) := by
  have hloop : ∀ mem t', Loop sb t t' → AppendStep sb buf t mem t' mem := fun mem t' => .loop
  unfold appendNext
  cases hpc : t.pc with
  | main => exact main_next hloop hpc
  | block => exact block_next hloop hpc id fun mem => .body hpc
  | offset => exact offsets_next hloop hpc
  | req => exact requests_next hloop hpc
  | wait =>
    dsimp only
    split
    · rename_i hlt
      exact .check hpc hlt
    · rename_i hlt
      exact next_go fun mem => .loop (.waited hpc hlt)
  | file =>
    refine .act (fun mem t' mem' hf => ?_) nofun
    cases hf
    exact .file hpc

theorem parseNext_next (sb : Superblock) (buf : Nat) (t : Tool) :
    Next sb buf .write t { t with j := t.j + 1 } (OffTable sb t ∨ AtEnd t) (ParseStep sb buf t)
      (parseNext sb buf t) := by
  have hloop : ∀ mem t', Loop sb t t' → ParseStep sb buf t mem t' mem := fun mem t' => .loop
  unfold parseNext
  cases hpc : t.pc with
  | main => exact main_next hloop hpc
  | block => exact block_next hloop hpc .inl fun mem => .body hpc
  | offset => exact offsets_next hloop hpc
  | req => exact requests_next hloop hpc
  | wait =>
    dsimp only
    split
    · rename_i hlt
      exact .check hpc hlt
    · rename_i hlt
      exact next_go fun mem => .loop (.waited hpc hlt)
  | file =>
    dsimp only
    split
    · rename_i hj
      refine .act (fun mem t' mem' hf => ?_) fun mem hf => ?_
      · split at hf
        · rename_i hlen
          cases hf
          exact .fill hpc hj hlen
        · cases hf
      · split at hf
        · cases hf
        · rename_i hlen
          exact .inr ⟨hpc, hj, Nat.lt_of_not_le hlen⟩
    · rename_i hj
      exact next_go fun mem => .filled hpc hj

end

/-! ## The local variables -/

theorem NoGap.nBlock_le {sb : Superblock} (hg : NoGap sb) {i : Nat} (hi : i < MYFS_MAX_FILES)
    (hn : (sb.file i).name ≠ .empty) : (sb.file i).nBlock ≤ MYFS_MAX_BLOCKS_PER_FILE := by
  apply Nat.le_of_not_lt
  intro hlt
  exact Nat.lt_irrefl _ ((hg i hi hn MYFS_MAX_BLOCKS_PER_FILE).2 hlt).1

/-- A named file. -/
structure InFile (sb : Superblock) (i : Nat) : Prop where
  lt : i < MYFS_MAX_FILES
  named : (sb.file i).name ≠ .empty
  nBlock : (sb.file i).nBlock ≤ MYFS_MAX_BLOCKS_PER_FILE

theorem InFile.wrap {sb : Superblock} {i : Nat} (h : InFile sb i) :
    wrap32 (sb.file i).nBlock = (sb.file i).nBlock := by
  have := h.nBlock
  rw [MYFS_MAX_BLOCKS_PER_FILE_eq] at this
  exact wrap32_of_range (by omega) (by omega)

def At (sb : Superblock) (t : Tool) : Prop :=
  match t.pc with
  | .main => t.i ≤ MYFS_MAX_FILES
  | .block => InFile sb t.i ∧ t.iBlock ≤ (sb.file t.i).nBlock
  | .offset => (InFile sb t.i ∧ t.iBlock < (sb.file t.i).nBlock) ∧
      (t.offset = 0 ∨ t.offset = 8 * DEG)
  | .req => (InFile sb t.i ∧ t.iBlock < (sb.file t.i).nBlock) ∧ t.offset = 0 ∧ t.j ≤ DEG
  | .wait | .file => (InFile sb t.i ∧ t.iBlock < (sb.file t.i).nBlock) ∧ t.j ≤ DEG

section
variable {sb : Superblock} {buf : Nat} {t t' : Tool} {mem mem' : Nat → UInt8}

theorem at_main (h : At sb t) (hpc : t.pc = .main) : t.i ≤ MYFS_MAX_FILES := by
  simpa only [At, hpc] using h

theorem at_block (h : At sb t) (hpc : t.pc = .block) :
    InFile sb t.i ∧ t.iBlock ≤ (sb.file t.i).nBlock := by
  simpa only [At, hpc] using h

theorem at_offset (h : At sb t) (hpc : t.pc = .offset) :
    (InFile sb t.i ∧ t.iBlock < (sb.file t.i).nBlock) ∧ (t.offset = 0 ∨ t.offset = 8 * DEG) := by
  simpa only [At, hpc] using h

theorem at_req (h : At sb t) (hpc : t.pc = .req) :
    (InFile sb t.i ∧ t.iBlock < (sb.file t.i).nBlock) ∧ t.offset = 0 ∧ t.j ≤ DEG := by
  simpa only [At, hpc] using h

theorem at_wait (h : At sb t) (hpc : t.pc = .wait) :
    (InFile sb t.i ∧ t.iBlock < (sb.file t.i).nBlock) ∧ t.j ≤ DEG := by
  simpa only [At, hpc] using h

theorem at_file (h : At sb t) (hpc : t.pc = .file) :
    (InFile sb t.i ∧ t.iBlock < (sb.file t.i).nBlock) ∧ t.j ≤ DEG := by
  simpa only [At, hpc] using h

theorem offsets_lt {o : Nat} (ho : o = 0 ∨ o = 8 * DEG) : o < MYFS_BLOCK_SIZE / 512 ↔ o = 0 := by
  have hD := DEG_eq
  rw [MYFS_BLOCK_SIZE_eq]
  omega

theorem At.loop (h : At sb t) (hg : NoGap sb) (hl : Loop sb t t') : At sb t' := by
  cases hl with
  | skip hpc hi =>
    unfold At
    dsimp only
    rw [hpc]
    exact hi
  | enter hpc hi hne => exact ⟨⟨hi, hne, hg.nBlock_le hi hne⟩, Nat.zero_le _⟩
  | leave hpc => exact (at_block h hpc).1.lt
  | sweep hpc hlt =>
    obtain ⟨hb, ho⟩ := at_offset h hpc
    exact ⟨hb, (offsets_lt ho).1 hlt, Nat.zero_le _⟩
  | swept hpc => exact ⟨(at_offset h hpc).1, Nat.zero_le _⟩
  | asked hpc =>
    obtain ⟨hb, h0, -⟩ := at_req h hpc
    refine ⟨hb, .inr ?_⟩
    dsimp only
    rw [h0, Nat.zero_add]
  | waited hpc =>
    obtain ⟨⟨hf, hlt⟩, -⟩ := at_wait h hpc
    exact ⟨hf, hlt⟩

theorem At.body (h : At sb t) (hpc : t.pc = .block)
    (hlt : (t.iBlock : Int) < wrap32 (sb.file t.i).nBlock) :
    InFile sb t.i ∧ t.iBlock < (sb.file t.i).nBlock := by
  obtain ⟨hf, -⟩ := at_block h hpc
  rw [hf.wrap] at hlt
  exact ⟨hf, Int.ofNat_lt.1 hlt⟩

theorem At.append (h : At sb t) (hg : NoGap sb) (hj : t.pc = .file → t.j < DEG)
    (hs : AppendStep sb buf t mem t' mem') : At sb t' := by
  cases hs with
  | loop hl => exact h.loop hg hl
  | body hpc hlt => exact ⟨h.body hpc hlt, .inl rfl⟩
  | file hpc => exact ⟨(at_file h hpc).1, hj hpc⟩

theorem At.parse (h : At sb t) (hg : NoGap sb)
    (hs : ParseStep sb buf t mem t' mem') : At sb t' := by
  cases hs with
  | loop hl => exact h.loop hg hl
  | body hpc hlt => exact ⟨h.body hpc hlt, Nat.zero_le _⟩
  | fill hpc hj => exact ⟨(at_file h hpc).1, hj⟩
  | filled hpc => exact ⟨(at_file h hpc).1, .inl rfl⟩

theorem At.took (h : At sb t) (hpc : t.pc = .req) (hj : t.j < DEG) (rid : Int) :
    At sb (t.took rid) := by
  obtain ⟨hb, h0, -⟩ := at_req h hpc
  exact ⟨hb, h0, hj⟩

/-- The block table has the block that a loop is at. -/
theorem At.onTable (h : At sb t) : ¬ OffTable sb t := by
  intro ⟨hpc, hlt, hmax⟩
  obtain ⟨hf, hb⟩ := h.body hpc hlt
  exact hmax (Nat.lt_of_lt_of_le hb hf.nBlock)

theorem Loop.ssd (hl : Loop sb t t') : t'.ssd = t.ssd := by
  cases hl <;> rfl

theorem Loop.not_file (hl : Loop sb t t') : t'.pc ≠ .file := by
  cases hl with
  | skip hpc =>
    dsimp only
    rw [hpc]
    exact nofun
  | _ => exact nofun

end

/-! ## What is left to do -/

/-- The steps to come, with those in a block in the order of the program; `file j` is for the
transfer of buffer `j` with the backup file. -/
def Tool.left (file : Nat → Nat) (t : Tool) : Nat :=
  ((MYFS_MAX_FILES - t.i) * (MYFS_MAX_BLOCKS_PER_FILE + 2) +
      (if t.pc = .main then MYFS_MAX_BLOCKS_PER_FILE + 1
        else MYFS_MAX_BLOCKS_PER_FILE - t.iBlock)) * 10000 +
    match t.pc with
    | .main => 0
    | .block => 6000
    | .file => file t.j
    | .offset => if t.offset = 0 then 3600 else 2500
    | .req => 3000 + (DEG - t.j)
    | .wait => 2 * (DEG - t.j) + 1

section
variable {sb : Superblock} {buf : Nat} {t t' : Tool} {mem mem' : Nat → UInt8} {file : Nat → Nat}

theorem Loop.left (h : At sb t) (hl : Loop sb t t') : t'.left file < t.left file := by
  have hD := DEG_eq
  have hM := MYFS_MAX_BLOCKS_PER_FILE_eq
  cases hl with
  | skip hpc hi =>
    simp only [Tool.left, hpc, ↓reduceIte]
    rw [hM]
    omega
  | enter hpc hi hne =>
    simp only [Tool.left, hpc, ↓reduceIte, reduceCtorEq]
    omega
  | leave hpc hlt =>
    have hi := (at_block h hpc).1.lt
    simp only [Tool.left, hpc, ↓reduceIte, reduceCtorEq]
    rw [hM]
    omega
  | sweep hpc hlt =>
    obtain ⟨-, ho⟩ := at_offset h hpc
    simp only [Tool.left, hpc, (offsets_lt ho).1 hlt, ↓reduceIte, reduceCtorEq]
    omega
  | swept hpc hlt =>
    obtain ⟨-, ho⟩ := at_offset h hpc
    have h0 : t.offset ≠ 0 := fun h0 => hlt ((offsets_lt ho).2 h0)
    simp only [Tool.left, hpc, h0, ↓reduceIte, reduceCtorEq]
    omega
  | asked hpc hlt =>
    have h0 : t.offset + 8 * DEG ≠ 0 := by omega
    simp only [Tool.left, hpc, h0, ↓reduceIte, reduceCtorEq]
    omega
  | waited hpc hlt =>
    obtain ⟨⟨hf, hb⟩, -⟩ := at_wait h hpc
    have hle := hf.nBlock
    simp only [Tool.left, hpc, ↓reduceIte, reduceCtorEq]
    omega

theorem took_left (hpc : t.pc = .req) (hj : t.j < DEG) (rid : Int) :
    (t.took rid).left file < t.left file := by
  simp only [Tool.left, Tool.took, hpc, ↓reduceIte, reduceCtorEq]
  omega

end

theorem append_left {sb : Superblock} {buf : Nat} {t t' : Tool} {mem mem' : Nat → UInt8}
    (h : At sb t) (hj : t.pc = .file → t.j < DEG) (hs : AppendStep sb buf t mem t' mem') :
    t'.left (fun j => 2 * (DEG - j)) < t.left fun j => 2 * (DEG - j) := by
  cases hs with
  | loop hl => exact hl.left h
  | body hpc hlt =>
    simp only [Tool.left, hpc, ↓reduceIte, reduceCtorEq]
    omega
  | file hpc =>
    have hj := hj hpc
    simp only [Tool.left, hpc, ↓reduceIte, reduceCtorEq]
    omega

theorem parse_left {sb : Superblock} {buf : Nat} {t t' : Tool} {mem mem' : Nat → UInt8}
    (h : At sb t) (hs : ParseStep sb buf t mem t' mem') :
    t'.left (fun j => 4000 + (DEG - j)) < t.left fun j => 4000 + (DEG - j) := by
  have hD := DEG_eq
  cases hs with
  | loop hl => exact hl.left h
  | body hpc hlt =>
    simp only [Tool.left, hpc, ↓reduceIte, reduceCtorEq]
    omega
  | fill hpc hj =>
    simp only [Tool.left, hpc, ↓reduceIte, reduceCtorEq]
    omega
  | filled hpc =>
    simp only [Tool.left, hpc, ↓reduceIte, reduceCtorEq]
    omega

/-- A program that is not stuck, and whose steps leave less to do. -/
theorem goes_of_next {cfg : Cfg} {next : Tool → Eff} {sb : Superblock} {buf : Nat} {opc : Opc}
    {s : Client} {answered : Tool} {stuck : Prop} {Step : (Nat → UInt8) → Tool → (Nat → UInt8) →
      Prop} {file : Nat → Nat}
    (hnext : Next sb buf opc s.tool answered stuck Step (next s.tool)) (hstuck : ¬ stuck)
    (hact : ∀ t' mem', Step s.mem t' mem' → t'.left file < s.tool.left file)
    (hcheck : s.tool.pc = .wait → s.tool.j < DEG → answered.left file < s.tool.left file ∧
      ∃ did < cfg.ND, ∃ x ∈ (s.q did).issued, x.rid = s.tool.rid s.tool.j) :
    Goes cfg next (Tool.left file) s := by
  unfold Goes
  generalize next s.tool = e at hnext
  cases hnext with
  | @act f hstep hnone =>
    cases hf : f s.mem with
    | none => exact absurd (hnone _ hf) hstuck
    | some p => exact ⟨p.1, p.2, hf, hact _ _ (hstep _ _ _ hf)⟩
  | req hpc hj => exact took_left hpc hj
  | check hpc hj => exact hcheck hpc hj
  | ret => trivial

theorem next_fits {next : Tool → Eff} {sb : Superblock} {buf : Nat} {opc : Opc} {t answered : Tool}
    {stuck : Prop} {Step : (Nat → UInt8) → Tool → (Nat → UInt8) → Prop}
    (hnext : Next sb buf opc t answered stuck Step (next t))
    (ho : opc = .read ∨ opc = .write) {r : Req} {k : Int → Tool}
    (hn : next t = .req r k) : r.Fits := by
  rw [hn] at hnext
  cases hnext
  exact request_fits ho t

/-! ## Requests on their way -/

/-- Buffers whose check has answered; `file` counts them at a transfer with the backup file. -/
def Tool.seen (t : Tool) (file : Nat) : Nat :=
  match t.pc with
  | .wait => t.j
  | .file => file
  | _ => 0

/-- Buffers whose request is made. -/
def Tool.sent (t : Tool) (file : Nat) : Nat :=
  match t.pc with
  | .main | .block => 0
  | .offset => t.offset / 8
  | .req => t.j
  | .wait => DEG
  | .file => file

/-- A step of the loops: the requests are the same, or all have answered and the next ones may
begin. -/
theorem Loop.requests {sb : Superblock} {t t' : Tool} (h : At sb t) (hl : Loop sb t t')
    (a a' b : Nat) :
    t'.rid = t.rid ∧
      ((t'.blk sb = t.blk sb ∧ t'.seen a' = t.seen a ∧ t'.sent b = t.sent b) ∨
        (t.sent b ≤ t.seen a ∧ t'.seen a' = 0 ∧ t'.sent b = 0)) := by
  cases hl with
  | skip hpc =>
    simp only [Tool.seen, Tool.sent, hpc]
    exact ⟨trivial, .inr ⟨Nat.le_refl 0, trivial, trivial⟩⟩
  | enter hpc =>
    simp only [Tool.seen, Tool.sent, hpc]
    exact ⟨trivial, .inr ⟨Nat.le_refl 0, trivial, trivial⟩⟩
  | leave hpc =>
    simp only [Tool.seen, Tool.sent, hpc]
    exact ⟨trivial, .inr ⟨Nat.le_refl 0, trivial, trivial⟩⟩
  | sweep hpc hlt =>
    have h0 := (offsets_lt (at_offset h hpc).2).1 hlt
    simp only [Tool.seen, Tool.sent, hpc, h0]
    exact ⟨trivial, .inl ⟨rfl, trivial, trivial⟩⟩
  | swept hpc hlt =>
    obtain ⟨-, ho⟩ := at_offset h hpc
    have h8 : t.offset / 8 = DEG := by
      have hne : t.offset ≠ 0 := fun h0 => hlt ((offsets_lt ho).2 h0)
      omega
    simp only [Tool.seen, Tool.sent, hpc, h8]
    exact ⟨trivial, .inl ⟨rfl, trivial, trivial⟩⟩
  | asked hpc hlt =>
    obtain ⟨-, h0, hj⟩ := at_req h hpc
    have h8 : (t.offset + 8 * DEG) / 8 = t.j := by omega
    simp only [Tool.seen, Tool.sent, hpc, h8]
    exact ⟨trivial, .inl ⟨rfl, trivial, trivial⟩⟩
  | waited hpc hlt =>
    simp only [Tool.seen, Tool.sent, hpc]
    exact ⟨trivial, .inr ⟨Nat.le_of_not_lt hlt, trivial, trivial⟩⟩

/-! ## The bytes in the order of the loops -/

theorem flatMap_range_succ {α : Type} (f : Nat → List α) (n : Nat) :
    (List.range (n + 1)).flatMap f = (List.range n).flatMap f ++ f n := by
  simp [List.range_succ]

theorem flatMap_range_le {α : Type} (f : Nat → List α) {m n : Nat} (h : m ≤ n) :
    (List.range m).flatMap f <+: (List.range n).flatMap f := by
  induction h with
  | refl => exact List.prefix_refl _
  | step _ ih =>
    rw [flatMap_range_succ]
    exact ih.trans (List.prefix_append _ _)

section
variable (cfg : Cfg) (sb : Superblock) (D : Nat → Nat → UInt8)

/-- The bytes of the first `n` buffers of block `b`. -/
def blockBytes (b : Int) (n : Nat) : List UInt8 :=
  (List.range n).flatMap fun j => unitBytes D (spotOf cfg b j)

/-- The bytes of the first `n` blocks of file `i`. -/
def fileBytes (i n : Nat) : List UInt8 :=
  (List.range n).flatMap fun k => blockBytes cfg D ((sb.file i).block k) DEG

/-- The bytes of the named files among the first `n`. -/
def imageBytes (n : Nat) : List UInt8 :=
  (List.range n).flatMap fun i => if (sb.file i).name = .empty then []
    else fileBytes cfg sb D i (sb.file i).nBlock

/-- The bytes before buffer `j` of entry `k` of file `i`. -/
def image (i k j : Nat) : List UInt8 :=
  imageBytes cfg sb D i ++ (fileBytes cfg sb D i k ++ blockBytes cfg D ((sb.file i).block k) j)

theorem image_start (i k : Nat) :
    image cfg sb D i k 0 = imageBytes cfg sb D i ++ fileBytes cfg sb D i k := by
  simp [image, blockBytes]

theorem image_zero (i : Nat) : image cfg sb D i 0 0 = imageBytes cfg sb D i := by
  simp [image_start, fileBytes]

theorem image_unit (i k j : Nat) : image cfg sb D i k (j + 1) =
    image cfg sb D i k j ++ unitBytes D (spotOf cfg ((sb.file i).block k) j) := by
  unfold image
  rw [blockBytes, flatMap_range_succ, ← blockBytes, List.append_assoc, List.append_assoc]

theorem image_block (i k : Nat) : image cfg sb D i k DEG = image cfg sb D i (k + 1) 0 := by
  rw [image_start, image, fileBytes, fileBytes, flatMap_range_succ]

theorem imageBytes_skip {i : Nat} (h : (sb.file i).name = .empty) :
    imageBytes cfg sb D (i + 1) = imageBytes cfg sb D i := by
  unfold imageBytes
  rw [flatMap_range_succ, if_pos h, List.append_nil]

theorem image_file {i : Nat} (h : (sb.file i).name ≠ .empty) :
    image cfg sb D i (sb.file i).nBlock 0 = imageBytes cfg sb D (i + 1) := by
  rw [image_start, imageBytes, imageBytes, flatMap_range_succ, if_neg h]

theorem image_le {i k j : Nat} (hf : InFile sb i) (hk : k < (sb.file i).nBlock) (hj : j ≤ DEG) :
    image cfg sb D i k j <+: imageBytes cfg sb D MYFS_MAX_FILES := by
  have h1 : image cfg sb D i k j <+: image cfg sb D i k DEG :=
    List.prefix_append_right_inj _ |>.2
      (List.prefix_append_right_inj _ |>.2 (flatMap_range_le _ hj))
  have h2 : image cfg sb D i (k + 1) 0 <+: image cfg sb D i (sb.file i).nBlock 0 := by
    rw [image_start, image_start]
    exact (List.prefix_append_right_inj _).2 (flatMap_range_le _ hk)
  rw [image_block] at h1
  rw [image_file cfg sb D hf.named] at h2
  exact (h1.trans h2).trans (flatMap_range_le _ hf.lt)

end

end Backup

import Staut.Hook.Drives

/-!
# The backup tools (`abt_backup/abt_backup.c`, `abt_backup/abt_restore.c`)

Two single-threaded programs over the NVMe layer, with the superblock mapped and not changed.
`append` reads the blocks of a file, 512 buffers of 4 KB at a time, and writes them to the backup
file; `parse` reads the buffers from the backup file and writes them to the blocks. Each polls every
request of a block before it goes on.

`Tool` holds the local variables of `main` and of the function that it is in; `appendNext` and
`parseNext` are what the two programs do next. `Client` is a program with the queue pairs of its
core (core 0), its memory and the drives, which execute their commands at any time and in any order.
`backup` and `restore` are the transition systems.

The backup file is a list of bytes: what `append` has written, and what is left for `parse` to read.
`write` and `read` on it transfer whole buffers.
-/

set_option autoImplicit false

namespace Backup

open CSem Run Myfs Nvme

def BUF_SIZE : Nat := 4096
@[irreducible] def DEG : Nat := 512

theorem DEG_eq : DEG = 512 := by unfold DEG; rfl

/-! ## The programs -/

/-- Where a program is: at a loop test (`main` over the files, `block` over the blocks, `offset`
over the block, `req` and `wait` over the buffers), or at the transfer of buffer `j` with the backup
file. -/
inductive Pc
  | main
  | block
  | offset
  | req
  | wait
  | file
deriving DecidableEq

structure Tool where
  pc : Pc
  i : Nat
  iBlock : Nat
  offset : Nat
  j : Nat
  rid : Nat → Int
  ssd : List UInt8

/-- What a program does next: a step of its own on its memory, a request, a call of `nvme_check`,
or the end of `main`. -/
inductive Eff
  | act (f : (Nat → UInt8) → Option (Tool × (Nat → UInt8)))
  | req (r : Req) (k : Int → Tool)
  | check (rid : Int) (k : Bool → Tool)
  | ret

def Eff.go (t : Tool) : Eff := .act fun mem => some (t, mem)

/-- An access outside the block table. -/
def Eff.fault : Eff := .act fun _ => none

/-- `lba_base` of block number `b`. -/
def lbaBase (b : Int) : Nat := u64 b * MYFS_BLOCK_SIZE % 2 ^ 64 / 512

def Tool.blk (sb : Superblock) (t : Tool) : Int := (sb.file t.i).block t.iBlock

/-- The request for buffer `j`; `buf` is the address of the buffers. -/
def Tool.request (sb : Superblock) (buf : Nat) (opc : Opc) (t : Tool) : Req where
  opc := opc
  lba := wrap64 ((lbaBase (t.blk sb) + t.offset + 8 * t.j : Nat) : Int)
  numBlk := BUF_SIZE / 512
  len := BUF_SIZE
  buf := buf + BUF_SIZE * t.j

/-- The loop of `main`, which is the same in both programs. -/
def Tool.main (sb : Superblock) (t : Tool) : Eff :=
  if t.i < MYFS_MAX_FILES then
    if (sb.file t.i).name ≠ .empty then .go { t with pc := .block, iBlock := 0 }
    else .go { t with i := t.i + 1 }
  else .ret

/-- The test of the block loop, before the body that starts as `body`. -/
def Tool.block (sb : Superblock) (t body : Tool) : Eff :=
  if (t.iBlock : Int) < wrap32 (sb.file t.i).nBlock then
    if t.iBlock < MYFS_MAX_BLOCKS_PER_FILE then .go body else .fault
  else .go { t with pc := .main, i := t.i + 1 }

/-- The test of the offset loop. -/
def Tool.offsets (t : Tool) : Eff :=
  if t.offset < MYFS_BLOCK_SIZE / 512 then .go { t with pc := .req, j := 0 }
  else .go { t with pc := .wait, j := 0 }

/-- The request loop. -/
def Tool.requests (sb : Superblock) (buf : Nat) (opc : Opc) (t : Tool) : Eff :=
  if t.j < DEG then
    .req (t.request sb buf opc) fun rid =>
      { t with rid := Function.update t.rid t.j rid, j := t.j + 1 }
  else .go { t with pc := .offset, offset := t.offset + 8 * DEG }

/-- `append`, in `main` of `abt_backup.c`. -/
def appendNext (sb : Superblock) (buf : Nat) (t : Tool) : Eff :=
  match t.pc with
  | .main => t.main sb
  | .block => t.block sb { t with pc := .offset, offset := 0 }
  | .offset => t.offsets
  | .req => t.requests sb buf .read
  | .wait =>
    if t.j < DEG then .check (t.rid t.j) fun b => if b then { t with pc := .file } else t
    else .go { t with pc := .block, iBlock := t.iBlock + 1 }
  | .file => .act fun mem =>
    some ({ t with
      pc := .wait
      j := t.j + 1
      ssd := t.ssd ++ load mem (buf + BUF_SIZE * t.j) BUF_SIZE }, mem)

/-- `parse`, in `main` of `abt_restore.c`. -/
def parseNext (sb : Superblock) (buf : Nat) (t : Tool) : Eff :=
  match t.pc with
  | .main => t.main sb
  | .block => t.block sb { t with pc := .file, j := 0 }
  | .file =>
    if t.j < DEG then .act fun mem =>
      if BUF_SIZE ≤ t.ssd.length then
        some ({ t with j := t.j + 1, ssd := t.ssd.drop BUF_SIZE },
          store mem (buf + BUF_SIZE * t.j) (t.ssd.take BUF_SIZE))
      else none
    else .go { t with pc := .offset, offset := 0 }
  | .offset => t.offsets
  | .req => t.requests sb buf .write
  | .wait =>
    if t.j < DEG then .check (t.rid t.j) fun b => if b then { t with j := t.j + 1 } else t
    else .go { t with pc := .block, iBlock := t.iBlock + 1 }

/-! ## A program and the drives -/

/-- `q did` is `qps[did][1]` with its device; `busy` is the drive of the request or check that runs.
-/
structure Client where
  tool : Tool
  q : Nat → Queue
  mem : Nat → UInt8
  disk : Nat → Nat → UInt8
  busy : Option Nat

def Client.setQueue (s : Client) (did : Nat) (q : Queue) : Client :=
  { s with q := Function.update s.q did q }

section
variable (cfg : Cfg) (next : Tool → Eff)

/-- The queue pair of `did` made a step with result `o`. -/
def Client.answer (s : Client) (did : Nat) (q : Queue) (mem : Nat → UInt8) (o : Out) : Client :=
  let s' := { s.setQueue did q with mem := mem, busy := some did }
  match o, next s.tool with
  | .rid rid, .req _ k => { s' with tool := k rid, busy := none }
  | .check _ b, .check _ k => { s' with tool := k b, busy := none }
  | _, _ => s'

/-- The next step of the program, or of the request or check that runs. -/
def Client.cpu (s : Client) : Option Client :=
  match s.busy with
  | some did => ((s.q did).host cfg did 0 s.mem).map fun (q, mem, o) => s.answer next did q mem o
  | none =>
    match next s.tool with
    | .act f => (f s.mem).map fun (t, mem) => { s with tool := t, mem := mem }
    | .req r _ =>
      let did := (driveOf cfg r.lba).toNat
      match (s.q did).pc with
      | .idle => some { s.setQueue did { s.q did with pc := .newSqe r } with busy := some did }
      | _ => none
    | .check rid _ =>
      if 0 ≤ rid ∧ ridDid cfg rid < cfg.ND ∧ ridQid cfg rid = 1 then
        let did := (ridDid cfg rid).toNat
        match (s.q did).pc with
        | .idle => some (s.answer next did ((s.q did).callCheck rid).1 s.mem
            ((s.q did).callCheck rid).2)
        | _ => none
      else none
    | .ret => none

/-- Drive `did` executes the `k`-th of the commands that it has. -/
def Client.exec (s : Client) (did k : Nat) : Option Client :=
  (s.q did).dev.outstanding[k]?.map fun c =>
    let r := Hook.execCmd (s.q did).qp (s.disk did) c
    { s.setQueue did ((s.q did).complete k c r.1) with disk := Function.update s.disk did r.2 }

/-- `main` has returned. -/
def Client.Finished (s : Client) : Prop := s.busy = none ∧ next s.tool = .ret

inductive Label
  | cpu
  | exec (did k : Nat)

/-- A program that starts with the backup file `ssd` and the drives `disk`; `nvme_init` has set up
the queue pairs, and the rest of the memory is not initialised. -/
def client (ssd : List UInt8) (disk : Nat → Nat → UInt8) : LTS Client Label where
  init s := (∃ k off j rid, s.tool = ⟨.main, 0, k, off, j, rid, ssd⟩) ∧
    (∀ did, ∃ m, s.q did = Queue.new 1 m) ∧ s.disk = disk ∧ s.busy = none
  step s l s' :=
    match l with
    | .cpu => s.cpu cfg next = some s'
    | .exec did k => did < cfg.ND ∧ s.exec did k = some s'

/-- From every state of every run the program can come to its end. -/
def CanFinish (T : LTS Client Label) : Prop :=
  ∀ s, T.Reach s → ∃ s', T.Steps s s' ∧ s'.Finished next

end

/-- `abt_backup` on drives that hold `disk`; its buffers are at `buf`. -/
def backup (cfg : Cfg) (sb : Superblock) (buf : Nat) (disk : Nat → Nat → UInt8) :
    LTS Client Label :=
  client cfg (appendNext sb buf) [] disk

/-- `abt_restore` from `stream` on drives that hold `disk`. -/
def restore (cfg : Cfg) (sb : Superblock) (buf : Nat) (stream : List UInt8)
    (disk : Nat → Nat → UInt8) :
    LTS Client Label := client cfg (parseNext sb buf) stream disk

/-! ## The blocks -/

/-- The active block indices of every named file are exactly `0 .. n_block - 1`. -/
def NoGap (sb : Superblock) : Prop :=
  ∀ i < MYFS_MAX_FILES, (sb.file i).name ≠ .empty →
    ∀ k, (k < MYFS_MAX_BLOCKS_PER_FILE ∧ (sb.file i).block k ≠ INACTIVE_BLOCK) ↔
      k < (sb.file i).nBlock

/-- Byte `x` of drive `did` is a byte of block `b`. -/
def InBlock (cfg : Cfg) (b : Int) (did x : Nat) : Prop :=
  ∃ o < MYFS_BLOCK_SIZE, Hook.place cfg b o = (did, x)

/-- Byte `x` of drive `did` is in a block that a named file holds. -/
def Held (cfg : Cfg) (sb : Superblock) (did x : Nat) : Prop :=
  ∃ i < MYFS_MAX_FILES, (sb.file i).name ≠ .empty ∧ ∃ k < MYFS_MAX_BLOCKS_PER_FILE,
    (sb.file i).block k ≠ INACTIVE_BLOCK ∧ InBlock cfg ((sb.file i).block k) did x

end Backup

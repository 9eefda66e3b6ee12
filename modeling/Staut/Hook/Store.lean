import Staut.Lib.Stripe
import Staut.Lib.Cyclic
import Staut.Hook.Machine
import Mathlib.Data.Finset.Card

/-!
# The file store over its drives

Calls of `read_impl` and `write_impl` one after another, with drives that execute a command at its
doorbell. `Hook.Node` is a call in progress with the contents of the drives; `Node.step` is the next
step of the call, followed by the execution of the command it submitted, if it did. `Hook.Returns
cfg a s s'`: the call `a`, made in the store `s`, returns and leaves `s'`.

`Hook.Hist cfg s m` relates the states of every sequence of calls to the abstract store: a map from
(file, offset) to the byte last written there, which knows nothing of blocks, drives and queues.
-/

set_option autoImplicit false

namespace Hook

open CSem Run Myfs Nvme Cyclic

/-! ## Drives -/

/-- A command on the contents `d` of its drive: the data of a read, and the contents afterwards. -/
def execCmd (qp : QP) (d : Nat → UInt8) (c : Cmd) : List UInt8 × (Nat → UInt8) :=
  let addr := 512 * c.sqe.cdw10
  let n := 512 * (c.sqe.cdw12 + 1)
  match c.sqe.opc with
  | .read => (load d addr n, d)
  | .write => ([], store d addr (load (qp.buf4k c.sqe.prp1.1) c.sqe.prp1.2 n))
  | .flush => ([], d)

/-- A call in progress, and what the drives hold. -/
structure Node where
  m : Machine
  disk : Nat → Nat → UInt8

/-- Drive `did` executes the oldest command of its queue for `coreId`, if there is one. -/
def Node.exec (n : Node) (did coreId : Nat) : Node :=
  let q := n.m.q did coreId
  match q.dev.outstanding with
  | [] => n
  | c :: _ =>
    let r := execCmd q.qp (n.disk did) c
    { m := n.m.setQueue did coreId (q.complete 0 c r.1)
      disk := Function.update n.disk did r.2 }

/-- One step of the call; a command is executed at its doorbell. -/
def Node.step (cfg : Cfg) (n : Node) : Option Node :=
  (n.m.cpu cfg).map fun m =>
    match n.m.busy with
    | some (did, coreId) => Node.exec ⟨m, n.disk⟩ did coreId
    | none => ⟨m, n.disk⟩

/-! ## Calls -/

/-- The store between two calls. -/
structure Store where
  fs : State
  q : Nat → Nat → Queue
  mem : Nat → UInt8
  disk : Nat → Nat → UInt8

/-- A call of `read_impl` or `write_impl` by a ULT of core `coreId`; `rid` is the uninitialised
array. -/
structure Args where
  kind : Kind
  file : Nat
  len : Nat
  pos : Nat
  buf : Nat
  coreId : Nat
  rid : Nat → Int

def Store.start (s : Store) (fs : State) (c : IoCall) : Node :=
  ⟨⟨fs, s.q, s.mem, c, none, []⟩, s.disk⟩

/-- The end of the call. -/
def Node.finish (n : Node) : Store :=
  ⟨myfsDecrementRef n.m.fs n.m.call.hookfd, n.m.q, n.m.mem, n.disk⟩

/-- The call `a` returns, and leaves `s'`. -/
def Returns (cfg : Cfg) (a : Args) (s s' : Store) : Prop :=
  ∃ fs c, ioImpl a.kind s.fs a.file a.len a.pos a.buf a.coreId a.rid = .ok (fs, c) ∧
    Evt (Node.step cfg) (fun n => n.m.Returned cfg ∧ n.finish = s') (s.start fs c)

/-- Sectors of a file, in one call, within the block table. -/
structure Args.Ok (cfg : Cfg) (a : Args) : Prop where
  file : a.file < MYFS_MAX_FILES
  core : a.coreId < cfg.N_CORE
  pos : a.pos % 512 = 0
  len : a.len % 512 = 0
  len_le : a.len ≤ 0x7ffff000
  fits : a.pos + a.len ≤ MYFS_MAX_BLOCKS_PER_FILE * MYFS_BLOCK_SIZE

/-- The blocks that a range of offsets touches. -/
def blocksOf (pos len : Nat) : Finset Nat :=
  (Finset.range len).image fun o => (pos + o) / MYFS_BLOCK_SIZE

/-- Those of them that are not allocated. -/
def missing (sb : Superblock) (a : Args) : Finset Nat :=
  (blocksOf a.pos a.len).filter fun k => (sb.file a.file).block k = INACTIVE_BLOCK

/-- A write finds a free block whenever it allocates one. -/
def Room (sb : Superblock) (a : Args) : Prop :=
  a.kind = .write → (missing sb a).card ≤ cycLen NUM_BLOCKS sb.freeBlocksRp sb.freeBlocksWp

/-- The range is below the file's size and its blocks are allocated. -/
def Stored (s : Store) (a : Args) : Prop :=
  a.pos + a.len ≤ myfsGetSize s.fs a.file ∧
    ∀ k ∈ blocksOf a.pos a.len, (s.fs.sb.file a.file).block k ≠ INACTIVE_BLOCK

/-- Block `b` and offset `x` as an address of the striped device. -/
def addr (b : Int) (x : Nat) : Nat := b.toNat * MYFS_BLOCK_SIZE + x % MYFS_BLOCK_SIZE

/-- The byte at offset `x` of file `i`, if its block is allocated. -/
def content (cfg : Cfg) (sb : Superblock) (disk : Nat → Nat → UInt8) (i x : Nat) : Option UInt8 :=
  let b := (sb.file i).block (x / MYFS_BLOCK_SIZE)
  if b = INACTIVE_BLOCK then none
  else some (Stripe.view cfg.ND BLKSZ disk (addr b x))

/-! ## The abstract store -/

/-- The byte last written at each offset of each file. -/
abbrev Bytes := Nat → Nat → Option UInt8

def Bytes.call (m : Bytes) (a : Args) (mem : Nat → UInt8) : Bytes :=
  match a.kind with
  | .read => m
  | .write => fun i x =>
    if i = a.file ∧ a.pos ≤ x ∧ x < a.pos + a.len then some (mem (a.buf + (x - a.pos))) else m i x

/-- The store after a sequence of calls on a superblock just set up; in between the application uses
its memory and opens and closes files. -/
inductive Hist (cfg : Cfg) : Store → Bytes → Prop
  | init {s : Store} {sb : Superblock} : s.fs.sb = myfsSuperblockInit sb →
      (∀ did coreId, ∃ m, s.q did coreId = Queue.new (coreId + 1) m) → Hist cfg s fun _ _ => none
  | app {s : Store} {m : Bytes} (mem : Nat → UInt8) :
      Hist cfg s m → Hist cfg { s with mem := mem } m
  | opened {s : Store} {m : Bytes} {f : CStr} {i : Nat} {fs : State} : Hist cfg s m →
      myfsOpen s.fs f = .ok (i, fs) → Hist cfg { s with fs := fs } m
  | closed {s : Store} {m : Bytes} (i : Nat) : Hist cfg s m →
      Hist cfg { s with fs := myfsClose s.fs i } m
  | call {s s' : Store} {m : Bytes} {a : Args} : Hist cfg s m → a.Ok cfg → Room s.fs.sb a →
      Returns cfg a s s' → Hist cfg s' (m.call a s.mem)

end Hook

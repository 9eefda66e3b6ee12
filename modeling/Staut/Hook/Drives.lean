import Staut.Hook.Store
import Staut.Hook.Writes

/-!
# A write and the bytes of the drives

One `write_impl` on drives that execute their commands later, in any order. `Hook.drives cfg n` has
the runs from the node `n`: steps of the call, and the execution of any command that a drive still
has. `WriteEnds` relates the store before the call to the nodes in which the call has returned and
all its commands are executed.

`place cfg b o` is where the NVMe layer puts byte `o` of block `b`: a drive and an address on it.
-/

set_option autoImplicit false

namespace Hook

open CSem Run Myfs Nvme

/-- The drive, and the address on it, of byte `o` of block `b`. -/
def place (cfg : Cfg) (b : Int) (o : Nat) : Nat × Nat :=
  ((driveOf cfg (lbaOf b o)).toNat, 512 * cdw10Of cfg (lbaOf b o) + o % 512)

/-- The entry of the block table that `myfs_get_lba` uses for an offset. -/
def iBlock (o : Nat) : Nat := (wrap32 ((o / MYFS_BLOCK_SIZE : Nat) : Int)).toNat

/-- The place of offset `o` of file `i`. -/
def filePlace (cfg : Cfg) (sb : Superblock) (i o : Nat) : Nat × Nat :=
  place cfg ((sb.file i).block (iBlock o)) o

/-! ## Runs -/

/-- A step of the call, or drive `did` executes the `k`-th of the commands that it has from core
`coreId`. -/
inductive DLabel
  | cpu
  | exec (did coreId k : Nat)

def Node.execAt (n : Node) (did coreId k : Nat) : Option Node :=
  let q := n.m.q did coreId
  q.dev.outstanding[k]?.map fun c =>
    let r := execCmd q.qp (n.disk did) c
    { m := n.m.setQueue did coreId (q.complete k c r.1)
      disk := Function.update n.disk did r.2 }

def drives (cfg : Cfg) (n0 : Node) : LTS Node DLabel where
  init n := n = n0
  step n l n' :=
    match l with
    | .cpu => ∃ m, n.m.cpu cfg = some m ∧ n' = ⟨m, n.disk⟩
    | .exec did coreId k => n.execAt did coreId k = some n'

/-- No call is in progress and every command is executed; the bounce buffers hold anything. -/
def Store.Quiet (s : Store) : Prop :=
  ∀ did coreId, (s.q did coreId).pc = .idle ∧ (s.q did coreId).dev.outstanding = []

/-- The arguments of `write_impl`, with the core of the ULT and the uninitialised array. -/
structure WriteArgs where
  file : Nat
  range : Range
  buf : Nat
  coreId : Nat
  rid : Nat → Int

/-- The call `a` on the store `s`, with `disk` on the drives, has come to `n`: it has returned, and
all its commands are executed. -/
def WriteEnds (cfg : Cfg) (a : WriteArgs) (s : Store) (disk : Nat → Nat → UInt8)
    (n : Node) : Prop :=
  ∃ fs c, writeImpl s.fs a.file a.range.len a.range.pos a.buf a.coreId a.rid = .ok (fs, c) ∧
    (drives cfg (Store.start { s with disk := disk } fs c)).Reach n ∧ n.m.Returned cfg ∧
    ∀ did coreId, (n.m.q did coreId).dev.outstanding = []

/-! ## What a write may change -/

/-- Entry `k` of file `i` was allocated between `sb` and `sb'`. -/
def Allocated (sb sb' : Superblock) (i k : Nat) : Prop :=
  k < MYFS_MAX_BLOCKS_PER_FILE ∧ (sb.file i).block k = INACTIVE_BLOCK ∧
    (sb'.file i).block k ≠ INACTIVE_BLOCK

/-- Every byte of the drives that is in no newly allocated block, and that is not the place of an
offset in the range, is as before. -/
def OwnRange (cfg : Cfg) (a : WriteArgs) (sb : Superblock) (disk : Nat → Nat → UInt8)
    (n : Node) : Prop :=
  ∀ did x, (∀ o, a.range.Covers o → filePlace cfg n.m.fs.sb a.file o ≠ (did, x)) →
    (∀ k, Allocated sb n.m.fs.sb a.file k → ∀ o,
      place cfg ((n.m.fs.sb.file a.file).block k) o ≠ (did, x)) → n.disk did x = disk did x

/-- The range ends with a whole sector, or its last sector is in a block that the call allocates. -/
def EndsClean (sb : Superblock) (a : WriteArgs) : Prop :=
  a.range.len % 512 = 0 ∨
    (sb.file a.file).block (iBlock (u64 (a.range.pos + a.range.len - 1))) = INACTIVE_BLOCK

/-- The entries of the block table that the range needs and that are not allocated. -/
noncomputable def needed (sb : Superblock) (a : WriteArgs) : Finset Nat :=
  open Classical in
  (Finset.range MYFS_MAX_BLOCKS_PER_FILE).filter fun k =>
    (sb.file a.file).block k = INACTIVE_BLOCK ∧ ∃ o, a.range.Covers o ∧ iBlock o = k

end Hook

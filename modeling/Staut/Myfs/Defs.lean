import Staut.Lib.CSem
import Mathlib.Logic.Function.Basic

/-!
# The file store's superblock (`mylib/myfs.c`, `mylib/myfs.h`)

The mapped superblock (a table of `MYFS_MAX_FILES` files and the ring of free 2 MB blocks) and the
volatile file states, with every operation on them. Each `myfs_*` call is one function on
`Myfs.State`: the mutexes make the calls atomic. An array is a function of its index; a call that
would index outside an array, overflow a buffer or fail an `assert` is an `Except.error`.

`int32_t` block numbers are `Int` (`INACTIVE_BLOCK` is -1), the two ring indices are `Nat` (they
stay in `0 .. NUM_BLOCKS - 1`), `uint64_t` counters are `Nat` with the wrap written out, and the
16-bit fields of a file state are `UInt16`.
-/

set_option autoImplicit false

open CSem

/-- How a call can go wrong: an access outside an object, or a failed `assert`. -/
inductive Fault
  | outOfBounds
  | assertFailed
deriving DecidableEq, Repr

namespace Myfs

-- irreducible, so that no proof runs through a table of this size
@[irreducible] def MYFS_BLOCK_SIZE : Nat := 2 * 1024 * 1024
@[irreducible] def NUM_BLOCKS : Nat := 700 * 1024
@[irreducible] def MYFS_MAX_BLOCKS_PER_FILE : Nat := 1024 * 128
@[irreducible] def MYFS_MAX_NAMELEN : Nat := 1024
@[irreducible] def MYFS_MAX_FILES : Nat := 4096
def MYFS_MAGIC : Nat := 0xdeadcafebabeface
def INACTIVE_BLOCK : Int := -1
def MYFS_FILE_OPENED : UInt16 := 1  -- bit 0
def MYFS_FILE_UNLINKED : UInt16 := 2  -- bit 1

theorem MYFS_BLOCK_SIZE_eq : MYFS_BLOCK_SIZE = 2097152 := by unfold MYFS_BLOCK_SIZE; rfl
theorem NUM_BLOCKS_eq : NUM_BLOCKS = 716800 := by unfold NUM_BLOCKS; rfl
theorem MYFS_MAX_BLOCKS_PER_FILE_eq : MYFS_MAX_BLOCKS_PER_FILE = 131072 := by
  unfold MYFS_MAX_BLOCKS_PER_FILE; rfl
theorem MYFS_MAX_NAMELEN_eq : MYFS_MAX_NAMELEN = 1024 := by unfold MYFS_MAX_NAMELEN; rfl
theorem MYFS_MAX_FILES_eq : MYFS_MAX_FILES = 4096 := by unfold MYFS_MAX_FILES; rfl

/-- `file_t`; the name is the string in the `name` array. -/
structure File where
  name : CStr
  block : Nat → Int
  nBlock : Nat

/-- `superblock_t`. -/
structure Superblock where
  magic : Nat
  freeBlocks : Nat → Int
  freeBlocksRp : Nat
  freeBlocksWp : Nat
  file : Nat → File

/-- `myfs_file_state_t`. -/
structure FileState where
  flags : UInt16
  refCount : UInt16

/-- `superblock` and `myfs_file_states`. -/
structure State where
  sb : Superblock
  fileStates : Nat → FileState

/-! ## Updates -/

def Superblock.setFile (sb : Superblock) (i : Nat) (f : File) : Superblock :=
  { sb with file := Function.update sb.file i f }

def File.setBlock (f : File) (j : Nat) (b : Int) : File :=
  { f with block := Function.update f.block j b }

def State.setFlags (s : State) (i : Nat) (x : UInt16) : State :=
  { s with fileStates := Function.update s.fileStates i { s.fileStates i with flags := x } }

def State.setRefCount (s : State) (i : Nat) (x : UInt16) : State :=
  { s with fileStates := Function.update s.fileStates i { s.fileStates i with refCount := x } }

/-! ## Superblock -/

/-- `myfs_superblock_init` on whatever the mapped file holds: the last ring entry and every
`n_block` keep their old contents. -/
def myfsSuperblockInit (sb : Superblock) : Superblock where
  magic := MYFS_MAGIC
  freeBlocks i := if i < NUM_BLOCKS - 1 then (i : Int) else sb.freeBlocks i
  freeBlocksRp := 0
  freeBlocksWp := NUM_BLOCKS - 1
  file i :=
    if i < MYFS_MAX_FILES then
      { name := .empty
        block := fun j =>
          if j < MYFS_MAX_BLOCKS_PER_FILE then INACTIVE_BLOCK else (sb.file i).block j
        nBlock := (sb.file i).nBlock }
    else sb.file i

/-- `myfs_mount` once the superblock file is mapped. -/
def myfsMount (sb : Superblock) : State where
  sb := if sb.magic ≠ MYFS_MAGIC then myfsSuperblockInit sb else sb
  fileStates _ := ⟨0, 0⟩

def myfsUsedBlocks (sb : Superblock) : Int :=
  let rp : Int := sb.freeBlocksRp
  let wp : Int := sb.freeBlocksWp
  if rp < wp then rp + NUM_BLOCKS - wp - 1 else rp - wp - 1

/-! ## Unlink -/

/-- One round of `__myfs_unlink`'s loop: block `j` of `fd` goes to the end of the ring. -/
def releaseBlock (fd : Nat) (sb : Superblock) (j : Nat) : Superblock :=
  let oldVal := sb.freeBlocksWp
  let sb := { sb with
    freeBlocksWp := (oldVal + 1) % NUM_BLOCKS
    freeBlocks := Function.update sb.freeBlocks oldVal ((sb.file fd).block j) }
  sb.setFile fd ((sb.file fd).setBlock j INACTIVE_BLOCK)

/-- `__myfs_unlink`. -/
def myfsUnlinkSlot (s : State) (fd : Nat) : State :=
  let sb := (List.range (s.sb.file fd).nBlock).foldl (releaseBlock fd) s.sb
  let sb := sb.setFile fd { sb.file fd with name := .empty, nBlock := 0 }
  ({ s with sb := sb }.setRefCount fd 0).setFlags fd 0

/-- `__myfs_try_unlink`. -/
def myfsTryUnlink (s : State) (fd : Nat) : State :=
  let s := s.setFlags fd ((s.fileStates fd).flags ||| MYFS_FILE_UNLINKED)
  if (s.fileStates fd).refCount = 0 then myfsUnlinkSlot s fd else s

def myfsUnlinkFd (s : State) (fd : Nat) : State := myfsTryUnlink s fd

/-- The name test of `myfs_unlink` and `myfs_open`: `strncmp` over the length of `filename`. -/
def nameMatches (filename : CStr) (f : File) : Bool :=
  strncmp filename.strlen filename.bytes f.name.bytes = 0

/-- One round of `myfs_unlink`'s loop. -/
def unlinkIfMatch (filename : CStr) (s : State) (i : Nat) : State :=
  if nameMatches filename (s.sb.file i) then myfsTryUnlink s i else s

def myfsUnlink (s : State) (filename : CStr) : State :=
  (List.range MYFS_MAX_FILES).foldl (unlinkIfMatch filename) s

/-! ## Open and close -/

/-- `myfs_open`'s loop over the slots that are left, with `empty_i` so far: the matching slot, or
the final `empty_i`. -/
def openLoop (sb : Superblock) (filename : CStr) : List Nat → Option Nat → Nat ⊕ Option Nat
  | [], emptyI => .inr emptyI
  | i :: is, emptyI =>
    if nameMatches filename (sb.file i) then .inl i
    else
      let emptyI := if emptyI = none ∧ (sb.file i).name = .empty then some i else emptyI
      openLoop sb filename is emptyI

/-- `myfs_open`. With no free slot `empty_i` is -1, and a name that does not fit its array runs
into the block table: both are accesses outside an object. -/
def myfsOpen (s : State) (filename : CStr) : Except Fault (Nat × State) :=
  match openLoop s.sb filename (List.range MYFS_MAX_FILES) none with
  | .inl i => .ok (i, s.setFlags i MYFS_FILE_OPENED)
  | .inr none => .error .outOfBounds
  | .inr (some i) =>
    if MYFS_MAX_NAMELEN < filename.strlen + 1 then .error .outOfBounds
    else
      let sb := s.sb.setFile i { s.sb.file i with name := filename, nBlock := 0 }
      .ok (i, { s with sb := sb }.setFlags i MYFS_FILE_OPENED)

def myfsClose (s : State) (fd : Nat) : State :=
  s.setFlags fd ((s.fileStates fd).flags ^^^ MYFS_FILE_OPENED)

/-! ## Blocks -/

/-- The allocation of `myfs_get_lba`: the ring's next entry becomes block `k` of slot `i`. The
write index is not looked at. -/
def allocBlock (sb : Superblock) (i k : Nat) : Superblock :=
  let oldVal := sb.freeBlocksRp
  let sb := { sb with freeBlocksRp := (oldVal + 1) % NUM_BLOCKS }
  let f := (sb.file i).setBlock k (sb.freeBlocks oldVal)
  sb.setFile i { f with nBlock := (f.nBlock + 1) % 2 ^ 64 }

/-- The 512-byte sector of `offset` in block number `b`. -/
def lbaOf (b : Int) (offset : Nat) : Int :=
  wrap64 (((u64 b * MYFS_BLOCK_SIZE + offset % MYFS_BLOCK_SIZE) % 2 ^ 64 / 512 : Nat) : Int)

def myfsGetLba (s : State) (i offset : Nat) (write : Int) : Except Fault (Int × State) :=
  let iBlock := wrap32 ((offset / MYFS_BLOCK_SIZE : Nat) : Int)
  if iBlock < 0 ∨ (MYFS_MAX_BLOCKS_PER_FILE : Int) ≤ iBlock then .error .outOfBounds
  else
    let k := iBlock.toNat
    let sb :=
      if 0 < write ∧ (s.sb.file i).block k = INACTIVE_BLOCK then allocBlock s.sb i k else s.sb
    if (sb.file i).block k = INACTIVE_BLOCK then .error .assertFailed
    else .ok (lbaOf ((sb.file i).block k) offset, { s with sb := sb })

def myfsGetSize (s : State) (i : Nat) : Nat := (s.sb.file i).nBlock * MYFS_BLOCK_SIZE % 2 ^ 64

/-! ## Reference counts -/

/-- `myfs_increment_ref`; its callers ignore the result. -/
def myfsIncrementRef (s : State) (hookfd : Nat) : State × Int :=
  if (s.fileStates hookfd).flags = MYFS_FILE_OPENED then
    (s.setRefCount hookfd ((s.fileStates hookfd).refCount + 1), 0)
  else (s, -1)

/-- `myfs_decrement_ref`: the test is on the count before the subtraction. -/
def myfsDecrementRef (s : State) (hookfd : Nat) : State :=
  let refCount := (s.fileStates hookfd).refCount
  let s := s.setRefCount hookfd (refCount - 1)
  if refCount = 0 ∧ (s.fileStates hookfd).flags &&& MYFS_FILE_UNLINKED ≠ 0 then
    myfsUnlinkFd s hookfd
  else s

end Myfs

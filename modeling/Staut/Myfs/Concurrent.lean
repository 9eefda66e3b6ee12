import Staut.Lib.Run
import Staut.Lib.Cyclic
import Staut.Myfs.Defs
import Mathlib.Algebra.BigOperators.Group.Finset.Basic

/-!
# Concurrent use of the free ring (`mylib/myfs.c`)

The pop loop of `myfs_get_lba` and the push loop of `__myfs_unlink`, with every load,
compare-and-swap and store on `free_blocks`, `free_blocks_rp` and `free_blocks_wp` as a step of its
own. Allocators on different files and unlinkers interleave freely. A file has one of them at a
time: allocators hold its mutex, unlinkers hold `myfs_mutex` and come only when the file has no
references.

The history counts the advances of both indices without wrapping (`popped`, `pushed`: these are
positions, and position `p` is in slot `p % NUM_BLOCKS`), and holds what was stored for each
position and what each allocator got. Runs in which the read index overtakes the write index are
left out.
-/

set_option autoImplicit false

namespace Myfs

open CSem Run Cyclic

/-- Where the allocator or the unlinker of a file is: before its load of the index, before its
compare-and-swap, and, with the position it has got, before its access to the slot. -/
inductive RingPc
  | idle
  | allocLoad (iBlock : Nat)
  | allocCas (iBlock oldVal : Nat)
  | allocRead (iBlock oldVal p : Nat)
  | unlinkLoad (j : Nat)
  | unlinkCas (j oldVal : Nat)
  | unlinkStore (j oldVal q : Nat)

structure RingState where
  sb : Superblock
  pc : Nat → RingPc
  popped : Nat
  pushed : Nat
  filled : Nat → Option Int
  got : List (Nat × Int)

inductive RingOp
  | open (fd : Nat) (filename : CStr)
  | alloc (fd iBlock : Nat)
  | unlink (fd : Nat)
  | run (fd : Nat)

namespace RingState

def goto (s : RingState) (fd : Nat) (pc : RingPc) : RingState :=
  { s with pc := Function.update s.pc fd pc }

def setFile (s : RingState) (fd : Nat) (f : File) : RingState := { s with sb := s.sb.setFile fd f }

/-- The loop test of `__myfs_unlink`, and the end of that function. -/
def unlinkFrom (s : RingState) (fd j : Nat) : RingState :=
  if j < (s.sb.file fd).nBlock then s.goto fd (.unlinkLoad j)
  else (s.setFile fd { s.sb.file fd with name := .empty, nBlock := 0 }).goto fd .idle

/-- The store of `free_blocks[old_val]`, and the file's table. -/
def store (s : RingState) (fd j oldVal q : Nat) : RingState :=
  let b := (s.sb.file fd).block j
  { s with
    sb := { s.sb with freeBlocks := Function.update s.sb.freeBlocks oldVal b }.setFile fd
      ((s.sb.file fd).setBlock j INACTIVE_BLOCK)
    filled := Function.update s.filled q (some b) }

/-- The load of `free_blocks[old_val]`, the file's table and its count. -/
def read (s : RingState) (fd iBlock oldVal p : Nat) : RingState :=
  let b := s.sb.freeBlocks oldVal
  { s.setFile fd { (s.sb.file fd).setBlock iBlock b with
      nBlock := ((s.sb.file fd).nBlock + 1) % 2 ^ 64 } with
    got := s.got ++ [(p, b)] }

/-- The next step of the allocator or unlinker of a file. An allocator that gets `INACTIVE_BLOCK`
fails the `assert`; a block index outside the table ends the run as well. -/
def run (s : RingState) (fd : Nat) : Option RingState :=
  match s.pc fd with
  | .idle => none
  | .allocLoad k => some (s.goto fd (.allocCas k s.sb.freeBlocksRp))
  | .allocCas k oldVal =>
    if s.sb.freeBlocksRp = oldVal then
      if s.popped < s.pushed then
        some ({ s with
          sb := { s.sb with freeBlocksRp := (oldVal + 1) % NUM_BLOCKS }
          popped := s.popped + 1 }.goto fd (.allocRead k oldVal s.popped))
      else none
    else some (s.goto fd (.allocLoad k))
  | .allocRead k oldVal p =>
    if s.sb.freeBlocks oldVal = INACTIVE_BLOCK then none
    else some ((s.read fd k oldVal p).goto fd .idle)
  | .unlinkLoad j => some (s.goto fd (.unlinkCas j s.sb.freeBlocksWp))
  | .unlinkCas j oldVal =>
    if s.sb.freeBlocksWp = oldVal then
      some ({ s with
        sb := { s.sb with freeBlocksWp := (oldVal + 1) % NUM_BLOCKS }
        pushed := s.pushed + 1 }.goto fd (.unlinkStore j oldVal s.pushed))
    else some (s.goto fd (.unlinkLoad j))
  | .unlinkStore j oldVal q =>
    if j < MYFS_MAX_BLOCKS_PER_FILE then some ((s.store fd j oldVal q).unlinkFrom fd (j + 1))
      else none

/-- `myfs_open` on a free slot, the two calls up to their loops, and the steps of the loops. -/
def step (s : RingState) : RingOp → Option RingState
  | .open fd filename =>
    if fd < MYFS_MAX_FILES ∧ (s.sb.file fd).name = .empty ∧ filename ≠ .empty then
      some (s.setFile fd { s.sb.file fd with name := filename, nBlock := 0 })
    else none
  | .alloc fd k =>
    match s.pc fd with
    | .idle =>
      if fd < MYFS_MAX_FILES ∧ (s.sb.file fd).name ≠ .empty ∧ k < MYFS_MAX_BLOCKS_PER_FILE ∧
          (s.sb.file fd).block k = INACTIVE_BLOCK then
        some (s.goto fd (.allocLoad k))
      else none
    | _ => none
  | .unlink fd =>
    match s.pc fd with
    | .idle =>
      if fd < MYFS_MAX_FILES ∧ (s.sb.file fd).name ≠ .empty then some (s.unlinkFrom fd 0) else none
    | _ => none
  | .run fd => s.run fd

end RingState

/-- Blocks counted by a file: those of a free slot do not count. -/
def File.counted (f : File) : Nat := if f.name = .empty then 0 else f.nBlock

/-- A superblock between two calls: the free window and the files have room for each other in the
ring, and no block number is in two places. -/
structure Consistent (sb : Superblock) : Prop where
  rp_lt : sb.freeBlocksRp < NUM_BLOCKS
  wp_lt : sb.freeBlocksWp < NUM_BLOCKS
  room : cycLen NUM_BLOCKS sb.freeBlocksRp sb.freeBlocksWp +
    ∑ i ∈ Finset.range MYFS_MAX_FILES, (sb.file i).counted ≤ NUM_BLOCKS - 1
  free : ∀ m < cycLen NUM_BLOCKS sb.freeBlocksRp sb.freeBlocksWp,
    ∀ n < cycLen NUM_BLOCKS sb.freeBlocksRp sb.freeBlocksWp,
      sb.freeBlocks ((sb.freeBlocksRp + m) % NUM_BLOCKS) =
        sb.freeBlocks ((sb.freeBlocksRp + n) % NUM_BLOCKS) →
      sb.freeBlocks ((sb.freeBlocksRp + m) % NUM_BLOCKS) = INACTIVE_BLOCK ∨ m = n
  free_held : ∀ m < cycLen NUM_BLOCKS sb.freeBlocksRp sb.freeBlocksWp, ∀ i < MYFS_MAX_FILES,
    ∀ k < MYFS_MAX_BLOCKS_PER_FILE,
      (sb.file i).block k = sb.freeBlocks ((sb.freeBlocksRp + m) % NUM_BLOCKS) →
      (sb.file i).block k = INACTIVE_BLOCK
  held : ∀ i < MYFS_MAX_FILES, ∀ k < MYFS_MAX_BLOCKS_PER_FILE, ∀ i' < MYFS_MAX_FILES,
    ∀ k' < MYFS_MAX_BLOCKS_PER_FILE, (sb.file i).block k = (sb.file i').block k' →
      (sb.file i).block k = INACTIVE_BLOCK ∨ i = i' ∧ k = k'

/-- All interleavings, from any such superblock. -/
def ring : LTS RingState RingOp where
  init s := Consistent s.sb ∧ (∀ fd, s.pc fd = .idle) ∧ s.popped = s.sb.freeBlocksRp ∧
    s.pushed = s.popped + cycLen NUM_BLOCKS s.sb.freeBlocksRp s.sb.freeBlocksWp ∧
    (∀ p, s.filled p =
      if s.popped ≤ p ∧ p < s.pushed then some (s.sb.freeBlocks (p % NUM_BLOCKS)) else none) ∧
    s.got = []
  step s op s' := s.step op = some s'

end Myfs

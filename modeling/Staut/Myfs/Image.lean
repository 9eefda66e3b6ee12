import Staut.Lib.Bytes
import Staut.Myfs.Defs

/-!
# The mapped superblock (`mylib/myfs.h`, `mylib/myfs.c`)

`myfs_open` and `myfs_get_lba` on the bytes of `superblock_t` as they are mapped, with every access
at the address that the code computes for it, inside an array or not: an index that is not in its
array names whatever is there, the neighbouring field or slot, or memory before the superblock.

An address is relative to the start of the superblock. `Holds m sb` says that the bytes `m` are
those of the superblock `sb` of `Staut.Myfs.Defs`, where such an access ends the call.
-/

set_option autoImplicit false

namespace Myfs

open CSem Bytes

/-! ## Layout -/

/-- `free_blocks[j]`, behind `magic`. -/
def freeBlockAt (j : Int) : Int := 8 + 4 * j

def rpAt : Int := freeBlockAt NUM_BLOCKS

def wpAt : Int := rpAt + 4

def sizeofFile : Int := MYFS_MAX_NAMELEN + 4 * MYFS_MAX_BLOCKS_PER_FILE + 8

/-- `file[i].name`, the start of `file[i]`. -/
def nameAt (i : Int) : Int := wpAt + 4 + sizeofFile * i

/-- `file[i].block[k]`. -/
def blockAt (i k : Int) : Int := nameAt i + MYFS_MAX_NAMELEN + 4 * k

/-- `file[i].n_block`. -/
def nBlockAt (i : Int) : Int := blockAt i MYFS_MAX_BLOCKS_PER_FILE

/-! ## `myfs_open` -/

/-- `strncmp(filename, file[i].name, strlen(filename)) == 0`. -/
def matchesAt (m : Memory) (filename : CStr) (i : Nat) : Bool :=
  strncmp filename.strlen filename.bytes (bytes m (nameAt i) filename.strlen) = 0

/-- The loop over the slots that are left: the matching slot, or the final `empty_i`. -/
def openScan (m : Memory) (filename : CStr) : List Nat → Int → Nat ⊕ Int
  | [], emptyI => .inr emptyI
  | i :: is, emptyI =>
    if matchesAt m filename i then .inl i
    else openScan m filename is (if emptyI = -1 ∧ m (nameAt i) = 0 then i else emptyI)

/-- A call of `myfs_open`: its result, its stores to the superblock, and the index of the file state
whose flags become `MYFS_FILE_OPENED`. -/
structure OpenRun where
  ret : Int
  stores : List (Int × List UInt8)
  opened : Int

def openImage (m : Memory) (filename : CStr) : OpenRun :=
  match openScan m filename (List.range MYFS_MAX_FILES) (-1) with
  | .inl i => ⟨i, [], i⟩
  | .inr emptyI =>
    ⟨emptyI, [(nameAt emptyI, filename.bytes ++ [0]), (nBlockAt emptyI, toLe 8 0)], emptyI⟩

def OpenRun.mem (m : Memory) (r : OpenRun) : Memory := r.stores.foldl (fun m s => put m s.1 s.2) m

/-- The store stays within the name field and `n_block` of slot `i`. -/
def InSlot (i : Int) (s : Int × List UInt8) : Prop :=
  (nameAt i ≤ s.1 ∧ s.1 + s.2.length ≤ nameAt i + MYFS_MAX_NAMELEN) ∨
    (nBlockAt i ≤ s.1 ∧ s.1 + s.2.length ≤ nBlockAt i + 8)

/-- `myfs_open` returns a slot and stores to nothing but its name, `n_block` and flags; or it
reports a failure and leaves the superblock and the file states, whose flags are `flags`, as they
are. -/
def OpenConfined (m : Memory) (flags : Int → UInt16) (filename : CStr) : Prop :=
  let r := openImage m filename
  (0 ≤ r.ret ∧ r.ret < MYFS_MAX_FILES ∧ r.opened = r.ret ∧ ∀ s ∈ r.stores, InSlot r.ret s) ∨
    (r.ret < 0 ∧ r.mem m = m ∧ 0 ≤ r.opened ∧ r.opened < MYFS_MAX_FILES ∧
      flags r.opened = MYFS_FILE_OPENED)

/-! ## `myfs_get_lba` -/

/-- What `myfs_get_lba(i, ..)` accesses: `file[i].block[k]`, `file[i].n_block`, `free_blocks_rp` and
`free_blocks[j]`. -/
inductive Loc
  | block (k : Int)
  | nBlock
  | rp
  | free (j : Int)

def Loc.addr (i : Nat) : Loc → Int
  | .block k => blockAt i k
  | .nBlock => nBlockAt i
  | .rp => rpAt
  | .free j => freeBlockAt j

def Loc.size : Loc → Nat
  | .nBlock => 8
  | _ => 4

/-- A call of `myfs_get_lba`: its loads from the superblock and its stores to it, the superblock
afterwards, and the result. -/
structure LbaRun where
  reads : List Loc
  writes : List Loc
  mem : Memory
  lba : Except Fault Int

/-- `i_block`. -/
def iBlockOf (offset : Nat) : Int := wrap32 ((offset / MYFS_BLOCK_SIZE : Nat) : Int)

/-- The allocation for the entry `k` of file `i`. -/
def allocImage (m : Memory) (i : Nat) (k : Int) : Memory :=
  let oldVal := int32 m rpAt
  let m := putInt32 m rpAt ((wrap32 (oldVal + 1)).tmod NUM_BLOCKS)
  let m := putInt32 m (blockAt i k) (int32 m (freeBlockAt oldVal))
  putUint64 m (nBlockAt i) (uint64 m (nBlockAt i) + 1)

/-- The end of the call. -/
def lbaAt (m : Memory) (i : Nat) (k : Int) (offset : Nat) : Except Fault Int :=
  if int32 m (blockAt i k) = INACTIVE_BLOCK then .error .assertFailed
  else .ok (lbaOf (int32 m (blockAt i k)) offset)

def getLbaImage (m : Memory) (i offset : Nat) (write : Int) : LbaRun :=
  let k := iBlockOf offset
  if 0 < write ∧ int32 m (blockAt i k) = INACTIVE_BLOCK then
    ⟨[.block k, .rp, .free (int32 m rpAt), .nBlock, .block k], [.rp, .block k, .nBlock],
      allocImage m i k, lbaAt (allocImage m i k) i k offset⟩
  else ⟨[.block k], [], m, lbaAt m i k offset⟩

/-- An entry of the file's block table, its `n_block`, or the read index. -/
def Loc.OfFile : Loc → Prop
  | .block k => 0 ≤ k ∧ k < MYFS_MAX_BLOCKS_PER_FILE
  | .nBlock | .rp => True
  | .free _ => False

/-- The call reads (beside the ring's next entry) and stores what belongs to the file only, and a
write at or behind the end of the block table leaves the superblock as it is. -/
structure LookupConfined (m : Memory) (i offset : Nat) (write : Int) : Prop where
  reads : ∀ l ∈ (getLbaImage m i offset write).reads, l.OfFile ∨ l = .free (int32 m rpAt)
  writes : ∀ l ∈ (getLbaImage m i offset write).writes, l.OfFile
  behind : 0 < write → MYFS_MAX_BLOCKS_PER_FILE * MYFS_BLOCK_SIZE ≤ offset →
    (getLbaImage m i offset write).mem = m

/-! ## The superblock in memory -/

/-- The bytes of a superblock whose names are terminated within their fields. -/
structure Holds (m : Memory) (sb : Superblock) : Prop where
  name : ∀ i < MYFS_MAX_FILES, (sb.file i).name.strlen < MYFS_MAX_NAMELEN ∧
    bytes m (nameAt i) ((sb.file i).name.strlen + 1) = (sb.file i).name.bytes ++ [0]
  block : ∀ i < MYFS_MAX_FILES, ∀ k < MYFS_MAX_BLOCKS_PER_FILE,
    int32 m (blockAt i k) = (sb.file i).block k
  nBlock : ∀ i < MYFS_MAX_FILES, uint64 m (nBlockAt i) = (sb.file i).nBlock
  free : ∀ j < NUM_BLOCKS, int32 m (freeBlockAt j) = sb.freeBlocks j
  rp : int32 m rpAt = sb.freeBlocksRp
  wp : int32 m wpAt = sb.freeBlocksWp

/-- Every field of the superblock fits its place. -/
structure Superblock.Fits (sb : Superblock) : Prop where
  name : ∀ i < MYFS_MAX_FILES, (sb.file i).name.strlen < MYFS_MAX_NAMELEN
  block : ∀ i < MYFS_MAX_FILES, ∀ k < MYFS_MAX_BLOCKS_PER_FILE,
    -2 ^ 31 ≤ (sb.file i).block k ∧ (sb.file i).block k < 2 ^ 31
  nBlock : ∀ i < MYFS_MAX_FILES, (sb.file i).nBlock < 2 ^ 64
  free : ∀ j < NUM_BLOCKS, -2 ^ 31 ≤ sb.freeBlocks j ∧ sb.freeBlocks j < 2 ^ 31
  rp : sb.freeBlocksRp < 2 ^ 31
  wp : sb.freeBlocksWp < 2 ^ 31

/-- The bytes of a superblock. -/
def imageOf (sb : Superblock) : Memory := fun a =>
  if a < freeBlockAt 0 then (toLe 8 sb.magic).getD a.toNat 0
  else if a < rpAt then
    int32Byte (sb.freeBlocks ((a - freeBlockAt 0) / 4).toNat) ((a - freeBlockAt 0) % 4).toNat
  else if a < wpAt then int32Byte sb.freeBlocksRp (a - rpAt).toNat
  else if a < nameAt 0 then int32Byte sb.freeBlocksWp (a - wpAt).toNat
  else
    let f := sb.file ((a - nameAt 0) / sizeofFile).toNat
    let o := (a - nameAt 0) % sizeofFile
    if o < MYFS_MAX_NAMELEN then f.name.bytes.getD o.toNat 0
    else if o < MYFS_MAX_NAMELEN + 4 * MYFS_MAX_BLOCKS_PER_FILE then
      int32Byte (f.block ((o - MYFS_MAX_NAMELEN) / 4).toNat) ((o - MYFS_MAX_NAMELEN) % 4).toNat
    else (toLe 8 f.nBlock).getD (o - MYFS_MAX_NAMELEN - 4 * MYFS_MAX_BLOCKS_PER_FILE).toNat 0

end Myfs

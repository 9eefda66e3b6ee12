import Staut.Hook.Sys

/-!
# The hooked names (`mylib/hook.c`)

* `parseHookedFilenames` on the value of `HOOKED_FILENAMES`: the array of blocks it allocates, with
  the bytes that it writes to them. A block's other bytes are whatever `malloc` left there (`none`).
  The counters are `int`; a string has fewer than `2 ^ 31` bytes.
* `Selected`: the names that are to be redirected, by the strings alone.
* `hookOpenatStores`: `hook_openat` with the writes to its two tables as a list, so that it can be
  seen what it writes where there is no entry (`Hook.hookOpenat` stops there).
-/

set_option autoImplicit false

namespace Hook

open CSem Myfs

/-! ## `parse_hooked_filenames` -/

/-- A block from `malloc`. -/
abbrev Block := List (Option UInt8)

def malloc (n : Nat) : Block := List.replicate n none

/-- The `n` bytes that `strncpy` writes: a string shorter than that is padded with NULs, a longer
one is cut without a NUL. -/
def strncpy (src : List UInt8) (n : Nat) : List UInt8 :=
  src.take n ++ List.replicate (n - src.length) 0

/-- The bytes `bs` at the start of a block. -/
def Block.fill (b : Block) (bs : List UInt8) : Block := bs.map some ++ b.drop bs.length

/-- The string that a user of the block reads; `none` if that takes a byte nobody has written, or
one behind the block. -/
def Block.str : Block → Option (List UInt8)
  | [] => none
  | none :: _ => none
  | some c :: b => if c = 0 then some [] else (Block.str b).map (c :: ·)

/-- The block when `malloc` happened to find zeroed memory. -/
def Block.zeroed (b : Block) : Block := b.map fun c => some (c.getD 0)

/-- ':'. -/
def colon : UInt8 := 58

/-- `start` and `hooked_filenames`, whose length is `n_hooked_filenames`. -/
structure Parse where
  start : Nat
  names : List Block

/-- The round of the loop at index `i`. -/
def parseRound (s : CStr) (i : Nat) (c : UInt8) (p : Parse) : Parse :=
  if c = colon then
    ⟨i + 1, p.names ++ [(malloc (i + 1)).fill (strncpy (s.bytes.drop p.start) i)]⟩
  else p

/-- The loop from index `i` on, where the bytes `cs` are left. -/
def parseLoop (s : CStr) : List UInt8 → Nat → Parse → Parse
  | [], _, p => p
  | c :: cs, i, p => parseLoop s cs (i + 1) (parseRound s i c p)

def parseHookedFilenames (s : CStr) : List Block :=
  let p := parseLoop s s.bytes 0 ⟨0, []⟩
  let n := s.strlen - p.start
  p.names ++ [(malloc (n + 1)).fill (strncpy (s.bytes.drop p.start) n)]

def fields (s : CStr) : List (List UInt8) := s.bytes.splitOn colon

/-- Every name is the string of its field. -/
def ParsedAsWritten (s : CStr) : Prop :=
  (parseHookedFilenames s).map Block.str = (fields s).map some

/-! ## The names that are redirected -/

/-- A configured name is a prefix, or the name is that of a table file in the directory. -/
def Selected (env : Env) (filename : CStr) : Prop :=
  (∃ h ∈ env.hookedFilenames, h.bytes <+: filename.bytes) ∨
    ∃ d ∈ env.hookedRocksdbDir, ∃ x y, x.length = sstFilenameLen ∧
      filename.bytes = d.bytes ++ x ++ sstSuffix ++ y

/-- The name starts with the directory and ends before the place where the suffix is expected. -/
def TooShort (env : Env) (filename : CStr) : Prop :=
  ∃ d ∈ env.hookedRocksdbDir, d.bytes <+: filename.bytes ∧
    filename.strlen < d.strlen + sstFilenameLen

/-! ## What an open writes -/

inductive Table
  | hookfds
  | curPos
deriving DecidableEq

/-- A write to `hookfds[index]` or `cur_pos[index]`. -/
structure TableStore where
  table : Table
  index : Int
  value : Int

/-- What `hook_openat` leaves: the file store, its writes to the tables and its result. -/
structure Opened where
  fs : State
  stores : List TableStore
  ret : Int

def hookOpenatStores (env : Env) (fs : State) (filename : CStr) (ret : Int) :
    Except Fault Opened := do
  if ← isHookedFilename env filename then
    if ret < MAX_HOOKFD then
      let (i, fs) ← myfsOpen fs filename
      pure ⟨fs, [⟨.hookfds, ret, i⟩, ⟨.curPos, ret, 0⟩], ret⟩
    else throw .assertFailed
  else pure ⟨fs, [], ret⟩

def Sys.entry (s : Sys) : Table → Nat → Int
  | .hookfds, i => s.hookfds i
  | .curPos, i => s.curPos i

/-- The index is one of the table's. -/
def TableStore.Within (st : TableStore) : Prop := 0 ≤ st.index ∧ st.index < MAX_HOOKFD

/-- The write leaves everything as it was. -/
def TableStore.Harmless (s : Sys) (st : TableStore) : Prop :=
  st.Within ∧ s.entry st.table st.index.toNat = st.value

/-- `hook_openat` returns what the kernel returned and leaves the tables and the file store as they
were. -/
def OpenHarmless (env : Env) (s : Sys) (filename : CStr) (ret : Int) : Prop :=
  ∃ o, hookOpenatStores env s.fs filename ret = .ok o ∧ o.ret = ret ∧ o.fs = s.fs ∧
    ∀ st ∈ o.stores, st.Harmless s

end Hook

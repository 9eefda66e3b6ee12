import Staut.Lib.Run
import Staut.Hook.Impl

/-!
# Writes to one file

`Hook.writes cfg i`: any number of ULTs call `write_impl` on slot `i`, starting from an empty file,
interleaved in any way and with whatever the NVMe layer answers. The rest of the store may change at
any time (`WLabel.other`): other files, the free ring, reference counts. `Writes.done` is the
history of the ranges whose call has returned.
-/

set_option autoImplicit false

namespace Hook

open CSem Run Myfs Nvme

/-- The arguments `len` and `pos` of a call. -/
structure Range where
  pos : Int
  len : Int

/-- The `uint64_t` file offsets of a range. -/
def Range.Covers (r : Range) (o : Nat) : Prop := ∃ x, 0 ≤ x ∧ x < r.len ∧ o = u64 (r.pos + x)

/-- `calls t`: the call that ULT `t` is in. -/
structure Writes where
  fs : State
  calls : Nat → Option IoCall
  done : List Range

inductive WLabel
  | start (t : Nat) (r : Range) (buf coreId : Nat) (rid : Nat → Int)
  | resume (t : Nat) (rid : Int) (done : Bool)
  | other (fs : State)

def Writes.setCall (s : Writes) (t : Nat) (c : IoCall) : Writes :=
  { s with calls := Function.update s.calls t (some c) }

inductive WStep (cfg : Cfg) (i : Nat) : Writes → WLabel → Writes → Prop
  | start {s : Writes} {t : Nat} {r : Range} {buf coreId : Nat} {rid : Nat → Int} {fs : State}
      {c : IoCall} : s.calls t = none → writeImpl s.fs i r.len r.pos buf coreId rid = .ok (fs, c) →
      WStep cfg i s (.start t r buf coreId rid) ({ s with fs := fs }.setCall t c)
  | tau {s : Writes} {t : Nat} {rid : Int} {done : Bool} {c c' : IoCall} : s.calls t = some c →
      c.next cfg = .tau c' → WStep cfg i s (.resume t rid done) (s.setCall t c')
  | req {s : Writes} {t offset : Nat} {rid lba write : Int} {done : Bool} {c : IoCall}
      {r : Int → Req} {cont : Int → IoCall} {fs : State} : s.calls t = some c →
      c.next cfg = .req offset write r cont →
      myfsGetLba s.fs c.hookfd offset write = .ok (lba, fs) →
      WStep cfg i s (.resume t rid done) ({ s with fs := fs }.setCall t (cont rid))
  | check {s : Writes} {t : Nat} {rid n : Int} {done : Bool} {c : IoCall} {cont : Bool → IoCall} :
      s.calls t = some c → c.next cfg = .check n cont →
      WStep cfg i s (.resume t rid done) (s.setCall t (cont done))
  | ret {s : Writes} {t : Nat} {rid : Int} {done : Bool} {c : IoCall} : s.calls t = some c →
      c.next cfg = .ret → WStep cfg i s (.resume t rid done)
        { fs := myfsDecrementRef s.fs c.hookfd
          calls := Function.update s.calls t none
          done := s.done ++ [⟨c.pos, c.len⟩] }
  | other {s : Writes} {fs : State} : fs.sb.file i = s.fs.sb.file i →
      WStep cfg i s (.other fs) { s with fs := fs }

/-- The writes to slot `i`, which has no blocks at first. -/
def writes (cfg : Cfg) (i : Nat) : LTS Writes WLabel where
  init s := (s.fs.sb.file i).nBlock = 0 ∧
    (∀ k < MYFS_MAX_BLOCKS_PER_FILE, (s.fs.sb.file i).block k = INACTIVE_BLOCK) ∧
    (∀ t, s.calls t = none) ∧ s.done = []
  step := WStep cfg i

/-- The offsets that a returned call has written. -/
def Writes.Written (s : Writes) (o : Nat) : Prop := ∃ r ∈ s.done, r.Covers o

/-- What has been written can be read: it is below the size, and no read of it is shortened. -/
structure Readable (i : Nat) (s : Writes) : Prop where
  size : ∀ o, s.Written o → o < myfsGetSize s.fs i
  whole : ∀ (r : Range) (buf coreId : Nat) (rid : Nat → Int) (fs : State) (c : IoCall),
    0 ≤ r.pos → r.pos < 2 ^ 63 → 0 < r.len → r.len < 2 ^ 63 → (∀ o, r.Covers o → s.Written o) →
    readImpl s.fs i r.len r.pos buf coreId rid = .ok (fs, c) → c.len = r.len

end Hook

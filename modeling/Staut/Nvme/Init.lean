import Staut.Lib.Fields
import Staut.Nvme.Defs

/-!
# The drives at start-up (`mylib/nvme.cc`)

`nvme_init` and `__nvme_init`. `DRIVE_IDS` is scanned by its suffixes: the loop stands at `&s[i]`.
What the code meets outside is `DriveEnv`, one for each round of the loop. Index `i` stays below the
length of the string, which is that of an environment variable and far from `INT_MAX`.

The array `pci_addr` has 13 bytes: `memcpy` sets the first 12, from the string or from what is in
memory behind it (`after`), and nothing sets the last one. `past` records that a byte behind the NUL
was read. Of a `QP`, the model keeps the `pci_addr` of the device whose registers it was made with.
-/

set_option autoImplicit false

namespace Nvme

open CSem Fields

/-- `NQ`: the admin queue and one for each core. -/
def Cfg.NQ (cfg : Cfg) : Nat := cfg.N_CORE + 1

/-- `'_'`. -/
def isSep (b : UInt8) : Bool := b == 95

/-- What one round of the loop meets: what is in `pci_addr[12]`; whether the driver's directory, the
file `resource0` and `mmap` can be had; `CSTS` after the controller is disabled; and whether the
controller gets ready, with all commands of the admin queue completed and memory for all queues. -/
structure DriveEnv where
  last : UInt8
  uio : Bool
  resource : Bool
  mapped : Bool
  csts : Nat
  ready : Bool

/-- The table `qps`, the count `j`, and the history. -/
structure InitState where
  qps : Nat → Nat → Option (List UInt8)
  j : Nat
  past : Bool

/-- `memcpy(pci_addr, &s[i], 12)`, with the byte that follows. -/
def pciAddr (after : Nat → UInt8) (s : List UInt8) (e : DriveEnv) : List UInt8 :=
  (s ++ 0 :: (List.range 12).map after).take 12 ++ [e.last]

/-- The bytes of an array as a string, if there is a NUL in it. -/
def terminated (bs : List UInt8) : Option (List UInt8) :=
  if 0 ∈ bs then some (bs.takeWhile (· ≠ 0)) else none

/-- `__nvme_init`: its result and the table. `none` is a failed `assert`, or a loop that does not
end. -/
def nvmeInitDrive (cfg : Cfg) (qps : Nat → Nat → Option (List UInt8)) (did : Nat)
    (addr : List UInt8) (e : DriveEnv) : Option (Int × (Nat → Nat → Option (List UInt8))) :=
  if !e.resource then some (-1, qps)
  else if !e.mapped then some (-1, qps)
  else if e.csts ≠ 0 then none
  else if !e.ready then none
  else some (0, fun d q => if d = did ∧ q < cfg.NQ then some addr else qps d q)

/-- The loop of `nvme_init`, whose second half steps over the field and the separators. `none` is
`exit(1)`, or a call that does not return. -/
def initLoop (cfg : Cfg) (after : Nat → UInt8) (env : Nat → DriveEnv) :
    List UInt8 → InitState → Option InitState
  | [], st => some st
  | c :: s, st =>
    let addr := pciAddr after (c :: s) (env st.j)
    if (env st.j).uio then
      match nvmeInitDrive cfg st.qps st.j addr (env st.j) with
      | none => none
      | some (_, qps) =>
        let st :=
          { qps := qps, j := st.j + 1, past := st.past || decide ((c :: s).length + 1 < 12) }
        if st.j = cfg.ND then some st else initLoop cfg after env (behind isSep (c :: s)) st
    else none
termination_by s => s.length
decreasing_by exact behind_lt c s

def nvmeInit (cfg : Cfg) (after : Nat → UInt8) (env : Nat → DriveEnv)
    (s : CStr) : Option InitState :=
  initLoop cfg after env s.bytes { qps := fun _ _ => none, j := 0, past := false }

/-- Every drive has all its queue pairs, made by a call with the drive's own field of 12 characters
as its string, and no byte behind the end of `DRIVE_IDS` was read. -/
structure DrivesReady (cfg : Cfg) (s : CStr) (st : InitState) : Prop where
  drives : ∀ did < cfg.ND, ∃ f, (fields isSep s.bytes)[did]? = some f ∧ f.length = 12 ∧
    ∀ q ≤ cfg.N_CORE, ∃ a, st.qps did q = some a ∧ terminated a = some f
  inside : st.past = false

/-- `DRIVE_IDS` starts with `ND` fields of 12 characters, and each time the byte behind `pci_addr`'s
window is 0 and `resource0` can be opened and mapped. With no drives, every window is inside the
string. -/
def DriveIdsOk (cfg : Cfg) (env : Nat → DriveEnv) (s : CStr) : Prop :=
  if cfg.ND = 0 then ∀ w ∈ starts isSep s.bytes, 11 ≤ w.length
  else (∀ c ∈ s.bytes.head?, isSep c = false) ∧
    ∀ did < cfg.ND, (∃ f, (fields isSep s.bytes)[did]? = some f ∧ f.length = 12) ∧
      (env did).last = 0 ∧ (env did).resource = true ∧ (env did).mapped = true

end Nvme

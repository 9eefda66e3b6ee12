import Staut.Lib.Run

/-!
# Values of keys (`argobots/src/include/abti_key.h`, `key.c`)

The table of one work unit, and any number of threads that call `ABTI_ktable_get` and
`ABTI_ktable_set` on it. What a thread does between two accesses to memory that others write is one
step.

* `State.run` is the next step of a thread; `none` is an access to a table at `NULL`.
* `State.hist` and `State.chain` are the history: what the calls have read and stored, the last one
  first, and the elements of each list in their order.
-/

set_option autoImplicit false

namespace Abt.Key

open Run

/-- `p_keytable`: `NULL`, `ABTI_KTABLE_LOCKED` or a table. -/
inductive Ptr
  | null
  | locked
  | table
deriving DecidableEq

/-- `ABTI_ktelem`. -/
structure Elem where
  destructor : Nat
  keyId : Nat
  value : Nat
  next : Option Nat

/-- `pp_elem`: `&p_ktable->p_elems[i]` or `&p_elem->p_next`. -/
inductive Slot
  | elems (i : Nat)
  | next (a : Nat)

/-- What a call of `ABTI_ktable_get` returns, or one of `ABTI_ktable_set` stores. -/
inductive Event
  | get (id v : Nat)
  | set (id v : Nat)

/-- The value of a key after the calls of a history. -/
def value : List Event → Nat → Nat
  | [], _ => 0
  | .get _ _ :: h, id => value h id
  | .set id' v :: h, id => if id = id' then v else value h id

/-- Every `get` returns the value that was stored last. -/
def Legal : List Event → Prop
  | [] => True
  | .get id v :: h => v = value h id ∧ Legal h
  | .set _ _ :: h => Legal h

/-- Where a thread is. `set`, `cas`, `create`, `check` and `pause` are `ABTI_ktable_set`; from
`find` on it is `ABTI_ktable_set_impl`, and `search`, `alloc`, `link`, `found` and `unlock` have the
lock. -/
inductive Pc
  | idle
  | get (id : Nat)
  | look (id : Nat) (p : Slot)
  | read (id a : Nat)
  | set (id v : Nat)
  | cas (id v : Nat)
  | create (id v : Nat)
  | check (id v : Nat)
  | pause (id v : Nat)
  | find (id v : Nat) (p : Slot)
  | acquire (id v : Nat) (p : Slot)
  | search (id v : Nat) (p : Slot)
  | alloc (id v : Nat) (p : Slot)
  | link (id v : Nat) (p : Slot) (a : Nat)
  | unlock
  | found (id v a : Nat)
  | write (id v a : Nat)

/-- `used` are the elements that the allocator has given out. -/
structure State where
  size : Nat
  ktable : Ptr
  elems : Nat → Option Nat
  elem : Nat → Elem
  used : Nat → Bool
  lock : Option Nat
  pc : Nat → Pc
  hist : List Event
  chain : Nat → List Nat

namespace State

def goto (s : State) (t : Nat) (pc : Pc) : State := { s with pc := Function.update s.pc t pc }

def log (s : State) (e : Event) : State := { s with hist := e :: s.hist }

/-- `ABTI_ktable_get_idx`. -/
def idx (s : State) (id : Nat) : Nat := id &&& (s.size - 1)

def load (s : State) : Slot → Option Nat
  | .elems i => s.elems i
  | .next a => (s.elem a).next

def store (s : State) (a : Nat) : Slot → State
  | .elems i => { s with elems := Function.update s.elems i (some a) }
  | .next b => { s with elem := Function.update s.elem b { s.elem b with next := some a } }

/-- The entry of `ABTI_ktable_set_impl`, with a table that exists. -/
def impl (s : State) (t id v : Nat) : State := s.goto t (.find id v (.elems (s.idx id)))

/-- The next step of a thread inside a call. `ok` says that a weak compare-and-swap or an allocation
does not fail, and `a` is the memory that an allocation gives. -/
def run (destr : Nat → Nat) (ok : Bool) (a : Nat) (s : State) (t : Nat) : Option State :=
  match s.pc t with
  | .idle => none
  | .get id =>
    some (if s.ktable = .table then s.goto t (.look id (.elems (s.idx id)))
      else (s.log (.get id 0)).goto t .idle)
  | .look id p =>
    some (match s.load p with
      | none => (s.log (.get id 0)).goto t .idle
      | some b => s.goto t (if (s.elem b).keyId = id then .read id b else .look id (.next b)))
  | .read id b => some ((s.log (.get id (s.elem b).value)).goto t .idle)
  | .set id v => some (if s.ktable = .table then s.impl t id v else s.goto t (.cas id v))
  | .cas id v =>
    some (if ok ∧ s.ktable = .null then { s with ktable := .locked }.goto t (.create id v)
      else s.goto t (.check id v))
  | .create id v =>
    some (if ok then { s with ktable := .table, elems := fun _ => none }.impl t id v
      else { s with ktable := .null }.goto t .idle)
  | .check id v =>
    some (match s.ktable with
      | .null => s.goto t (.cas id v)
      | .locked => s.goto t (.pause id v)
      | .table => s.impl t id v)
  | .pause id v =>
    match s.ktable with
    -- the loop is left, as if there were a table, also when the thread that has set the lock could
    -- not allocate one
    | .null => none
    | .locked => some s
    | .table => some (s.impl t id v)
  | .find id v p =>
    some (match s.load p with
      | none => s.goto t (.acquire id v p)
      | some b => s.goto t (if (s.elem b).keyId = id then .write id v b else .find id v (.next b)))
  | .acquire id v p =>
    some (if s.lock = none then { s with lock := some t }.goto t (.search id v p) else s)
  | .search id v p =>
    some (match s.load p with
      | none => s.goto t (.alloc id v p)
      | some b => s.goto t
          (if (s.elem b).keyId = id then .found id v b else .search id v (.next b)))
  | .alloc id v p =>
    some (if ok ∧ s.used a = false then
      { s with
        used := Function.update s.used a true
        elem := Function.update s.elem a ⟨destr id, id, v, none⟩ }.goto t (.link id v p a)
    else s.goto t .unlock)
  | .link id v p b =>
    some (({ s with
      chain := Function.update s.chain (s.idx id) (s.chain (s.idx id) ++ [b]) }.store b p |>.log
        (.set id v)).goto t .unlock)
  | .unlock => some ({ s with lock := none }.goto t .idle)
  | .found id v b => some ({ s with lock := none }.goto t (.write id v b))
  | .write id v b =>
    some (({ s with elem := Function.update s.elem b { s.elem b with value := v } }.log
      (.set id v)).goto t .idle)

/-- The elements whose destructor `ABTI_ktable_free` calls, from `p` on. -/
def freeElems (s : State) : Nat → Option Nat → Option (List Elem)
  | 0, _ => none
  | _ + 1, none => some []
  | fuel + 1, some a => do
    let l ← s.freeElems fuel (s.elem a).next
    return if (s.elem a).destructor ≠ 0 ∧ (s.elem a).value ≠ 0 then s.elem a :: l else l

/-- `ABTI_ktable_free`, from the list of `i` on. -/
def freeFrom (s : State) (fuel : Nat) : List Nat → Option (List Elem)
  | [] => some []
  | i :: is => do
    let l ← s.freeElems fuel (s.elems i)
    let r ← s.freeFrom fuel is
    return l ++ r

/-- The walk of `ABTI_ktable_free` through the lists, behind which it gives the memory of the table
back. -/
def ABTI_ktable_free (s : State) (fuel : Nat) : Option (List Elem) :=
  s.freeFrom fuel (List.range s.size)

end State

inductive Label
  | run (t : Nat) (ok : Bool) (a : Nat)
  | get (t id : Nat)
  | set (t id v : Nat)

/-- `destr id` is the destructor of a key. `key_table_size` is a power of 2. -/
def sys (destr : Nat → Nat) : LTS State Label where
  init s := (0 < s.size ∧ s.size &&& (s.size - 1) = 0) ∧ s.ktable = .null ∧
    (∀ a, s.used a = false) ∧ s.lock = none ∧
    (∀ t, s.pc t = .idle) ∧ s.hist = [] ∧ ∀ i, s.chain i = []
  step s l s' :=
    match l with
    | .run t ok a => s.run destr ok a t = some s'
    | .get t id => s.pc t = .idle ∧ s' = s.goto t (.get id)
    | .set t id v => s.pc t = .idle ∧ s' = s.goto t (.set id v)

end Abt.Key

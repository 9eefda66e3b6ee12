import Mathlib.Data.List.Basic
import Mathlib.Data.List.Infix
import Mathlib.Data.List.GetD
import Mathlib.Data.Int.Basic
import Mathlib.Algebra.Group.Nat.Defs
import Mathlib.Algebra.Group.Int.Defs

/-!
# C integers, strings and byte memory

* `wrap32`, `wrap64`: conversion to `int` and to `int64_t` (two's complement); `u64`: conversion
  to `uint64_t`.
* `CStr`: a NUL-terminated string by its bytes before the NUL, none of which is 0. `strncmp` is
  the library function on the bytes before the terminators; with the length of its first argument
  as the limit it tests for a prefix (`strncmp_strlen`).
* `load`, `store`: runs of consecutive bytes of a memory.
-/

set_option autoImplicit false

namespace CSem

/-- A sequence of fallible steps that succeeds. -/
theorem except_bind_ok {ε α β : Type} {x : Except ε α} {f : α → Except ε β} {b : β}
    (h : x >>= f = .ok b) : ∃ a, x = .ok a ∧ f a = .ok b := by
  cases x with
  | error e => cases h
  | ok a => exact ⟨a, rfl, h⟩

theorem except_bind_eq {ε α β : Type} {x : Except ε α} {a : α} (h : x = .ok a)
    (f : α → Except ε β) : x >>= f = f a := by
  rw [h]
  rfl

theorem toOption_eq_some {ε α : Type} {x : Except ε α} {a : α} :
    x.toOption = some a ↔ x = .ok a := by
  cases x with
  | error e => exact ⟨nofun, nofun⟩
  | ok b => simp [Except.toOption]

/-! ## Integers -/

/-- Conversion to `int`. -/
def wrap32 (x : Int) : Int := x.bmod (2 ^ 32)

/-- Conversion to `int64_t`. -/
def wrap64 (x : Int) : Int := x.bmod (2 ^ 64)

/-- Conversion to `uint64_t`. -/
def u64 (x : Int) : Nat := (x % 2 ^ 64).toNat

theorem wrap32_of_range {x : Int} (h1 : -2 ^ 31 ≤ x) (h2 : x < 2 ^ 31) : wrap32 x = x := by
  unfold wrap32
  rw [Int.bmod_def]
  split <;> omega

theorem wrap64_of_range {x : Int} (h1 : -2 ^ 63 ≤ x) (h2 : x < 2 ^ 63) : wrap64 x = x := by
  unfold wrap64
  rw [Int.bmod_def]
  split <;> omega

theorem u64_of_range {x : Int} (h1 : 0 ≤ x) (h2 : x < 2 ^ 64) : (u64 x : Int) = x := by
  unfold u64
  omega

/-! ## Strings -/

/-- A NUL-terminated string, by its bytes before the NUL. -/
structure CStr where
  bytes : List UInt8
  nul_free : 0 ∉ bytes
deriving DecidableEq

/-- The empty string (a NUL at index 0). -/
def CStr.empty : CStr := ⟨[], by simp⟩

def CStr.strlen (s : CStr) : Nat := s.bytes.length

theorem CStr.ext_iff' {s t : CStr} : s = t ↔ s.bytes = t.bytes := by
  cases s; cases t; simp

theorem CStr.eq_empty_iff {s : CStr} : s = .empty ↔ s.bytes = [] := by
  rw [CStr.ext_iff']; rfl

/-- `strncmp` with limit `n`; past its end a string reads as its NUL. -/
def strncmp : Nat → List UInt8 → List UInt8 → Int
  | 0, _, _ => 0
  | n + 1, a, b =>
    let x := a.headD 0
    let y := b.headD 0
    if x ≠ y then (x.toNat : Int) - y.toNat
    else if x = 0 then 0
    else strncmp n a.tail b.tail

theorem strncmp_prefix : ∀ {a : List UInt8} (b : List UInt8), 0 ∉ a →
    (strncmp a.length a b = 0 ↔ a <+: b)
  | [], b, _ => by simp [strncmp]
  | c :: cs, b, ha => by
    have hc : c ≠ 0 := fun h => ha (h ▸ List.mem_cons_self)
    have hcs : 0 ∉ cs := fun h => ha (List.mem_cons_of_mem _ h)
    have hne : ∀ d : UInt8, c ≠ d → (c.toNat : Int) - d.toNat ≠ 0 := fun d hd h =>
      hd (UInt8.toNat_inj.1 (by omega))
    cases b with
    | nil =>
      simp only [List.length_cons, strncmp, List.headD_cons, List.headD_nil, ne_eq, hc,
        not_false_eq_true, ↓reduceIte]
      simpa using hne 0 hc
    | cons d ds =>
      simp only [List.length_cons, strncmp, List.headD_cons, List.tail_cons, hc, ↓reduceIte,
        List.cons_prefix_cons]
      by_cases hd : c = d
      · simp only [hd, ne_eq, not_true_eq_false, ↓reduceIte, true_and]
        exact strncmp_prefix ds hcs
      · simpa only [ne_eq, hd, not_false_eq_true, ↓reduceIte, false_and, iff_false]
          using hne d hd

/-- Comparing as many bytes as `s` has tests whether `t` starts with `s`. -/
theorem strncmp_strlen (s t : CStr) : strncmp s.strlen s.bytes t.bytes = 0 ↔ s.bytes <+: t.bytes :=
  strncmp_prefix t.bytes s.nul_free

/-! ## Memory -/

/-- The `n` bytes from `a` on. -/
def load (m : Nat → UInt8) (a n : Nat) : List UInt8 := (List.range n).map fun k => m (a + k)

/-- The bytes `bs` written from `a` on. -/
def store (m : Nat → UInt8) (a : Nat) (bs : List UInt8) : Nat → UInt8 := fun x =>
  if a ≤ x ∧ x < a + bs.length then bs.getD (x - a) 0 else m x

@[simp] theorem length_load (m : Nat → UInt8) (a n : Nat) : (load m a n).length = n := by
  simp [load]

theorem getElem_load {m : Nat → UInt8} {a n k : Nat} (h : k < (load m a n).length) :
    (load m a n)[k] = m (a + k) := by simp [load]

theorem getD_load {m : Nat → UInt8} {a n k : Nat} (h : k < n) :
    (load m a n).getD k 0 = m (a + k) := by
  rw [List.getD_eq_getElem _ _ (by simpa using h), getElem_load]

theorem store_outside {m : Nat → UInt8} {a x : Nat} {bs : List UInt8}
    (h : x < a ∨ a + bs.length ≤ x) : store m a bs x = m x := by
  unfold store
  rw [if_neg (by omega)]

theorem store_inside {m : Nat → UInt8} {a k : Nat} {bs : List UInt8} (h : k < bs.length) :
    store m a bs (a + k) = bs.getD k 0 := by
  unfold store
  rw [if_pos (by omega), Nat.add_sub_cancel_left]

theorem load_congr {m m' : Nat → UInt8} {a n : Nat} (h : ∀ k < n, m (a + k) = m' (a + k)) :
    load m a n = load m' a n :=
  List.map_congr_left fun k hk => h k (List.mem_range.1 hk)

theorem load_store_same (m : Nat → UInt8) (a : Nat) (bs : List UInt8) :
    load (store m a bs) a bs.length = bs := by
  refine List.ext_getElem (by simp) fun k h1 h2 => ?_
  rw [getElem_load, store_inside h2, List.getD_eq_getElem _ _ h2]

theorem load_take {m : Nat → UInt8} {a n k : Nat} (h : k ≤ n) :
    (load m a n).take k = load m a k := by
  refine List.ext_getElem (by simp [h]) fun i h1 h2 => ?_
  rw [List.getElem_take, getElem_load, getElem_load]

end CSem

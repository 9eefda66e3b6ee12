import Mathlib.Data.List.TakeWhile
import Mathlib.Algebra.Group.Nat.Defs
import Mathlib.Algebra.Group.Int.Defs

/-!
# Hexadecimal numbers in text

`strtol` with base 16 on the bytes of a string, up to its NUL: `strtol_hex` reads back a text of
digits.
-/

set_option autoImplicit false

namespace Hex

def isxdigit (c : UInt8) : Bool :=
  (0x30 ≤ c && c ≤ 0x39) || (0x61 ≤ c && c ≤ 0x66) || (0x41 ≤ c && c ≤ 0x46)

def digit (c : UInt8) : Nat :=
  if c ≤ 0x39 then c.toNat - 0x30 else if 0x61 ≤ c then c.toNat - 0x61 + 10 else c.toNat - 0x41 + 10

def isspace (c : UInt8) : Bool := c == 0x20 || (0x09 ≤ c && c ≤ 0x0d)

def value (s : List UInt8) : Nat := s.foldl (fun v c => 16 * v + digit c) 0

def LONG_MAX : Int := 2 ^ 63 - 1

def LONG_MIN : Int := -2 ^ 63

/-- `0x` in front of a digit. -/
def skip0x : List UInt8 → List UInt8
  | 0x30 :: x :: c :: s => if (x = 0x78 ∨ x = 0x58) ∧ isxdigit c = true then c :: s
      else 0x30 :: x :: c :: s
  | s => s

def sign : List UInt8 → Bool × List UInt8
  | c :: s => if c = 0x2d then (true, s) else if c = 0x2b then (false, s) else (false, c :: s)
  | [] => (false, [])

/-- `strtol` with base 16. -/
def strtol (s : List UInt8) : Int :=
  let p := sign (s.dropWhile isspace)
  let v := value ((skip0x p.2).takeWhile isxdigit)
  if p.1 then max LONG_MIN (-v) else min LONG_MAX v

theorem xdigit_ne : ∀ c : UInt8, isxdigit c = true →
    isspace c = false ∧ c ≠ 0x2d ∧ c ≠ 0x2b ∧ c ≠ 0x78 ∧ c ≠ 0x58 := by
  have h : ∀ b : BitVec 8, isxdigit ⟨b⟩ = true →
      isspace ⟨b⟩ = false ∧ (⟨b⟩ : UInt8) ≠ 0x2d ∧ (⟨b⟩ : UInt8) ≠ 0x2b ∧ (⟨b⟩ : UInt8) ≠ 0x78 ∧
        (⟨b⟩ : UInt8) ≠ 0x58 := by
    decide +kernel
  exact fun c => h c.toBitVec

theorem skip0x_hex {s : List UInt8} (h : ∀ c ∈ s, isxdigit c = true) : skip0x s = s := by
  unfold skip0x
  split
  · rename_i x c s
    have hx := (xdigit_ne x (h x (by simp))).2.2.2
    rw [if_neg fun hc => hc.1.elim hx.1 hx.2]
  · rfl

/-- A text of digits reads as the number it is. -/
theorem strtol_hex {s : List UInt8} (h : ∀ c ∈ s, isxdigit c = true) (hv : value s < 2 ^ 63) :
    strtol s = value s := by
  have hs : sign (s.dropWhile isspace) = (false, s) := by
    cases s with
    | nil => rfl
    | cons c s =>
      obtain ⟨h1, h2, h3, -⟩ := xdigit_ne c (h c List.mem_cons_self)
      rw [List.dropWhile_cons_of_neg (by simp [h1])]
      show (if c = 0x2d then _ else if c = 0x2b then _ else _) = _
      rw [if_neg h2, if_neg h3]
  have ht : s.takeWhile isxdigit = s := List.takeWhile_eq_self_iff.mpr h
  unfold strtol
  simp only [hs, skip0x_hex h, ht]
  unfold LONG_MAX
  rw [if_neg (by decide)]
  omega

end Hex

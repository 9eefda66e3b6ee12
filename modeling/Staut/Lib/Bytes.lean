import Staut.Lib.CSem
import Mathlib.Data.Nat.Digits.Defs

/-!
# Words in byte memory

Memory by integer addresses (relative to an object, so that what lies before it has an address too),
and little-endian words in it.

* `bytes m a n`, `put m a bs`: runs of consecutive bytes. Runs that do not meet are independent
  (`bytes_put_apart`).
* `toLe n x`, `ofLe bs`: the `n` low bytes of a number, and the number that bytes stand for
  (`ofLe_toLe`).
* `int32`, `putInt32`, `uint64`, `putUint64`: typed loads and stores.
-/

set_option autoImplicit false

namespace Bytes

open CSem

abbrev Memory := Int → UInt8

/-- The `n` bytes from `a` on. -/
def bytes (m : Memory) (a : Int) (n : Nat) : List UInt8 :=
  (List.range n).map fun k : Nat => m (a + k)

/-- The bytes `bs` written from `a` on. -/
def put (m : Memory) (a : Int) (bs : List UInt8) : Memory := fun x =>
  if a ≤ x ∧ x < a + bs.length then bs.getD (x - a).toNat 0 else m x

/-- The runs of `n` bytes at `a` and of `k` bytes at `b` do not meet. -/
def Apart (a : Int) (n : Nat) (b : Int) (k : Nat) : Prop := a + n ≤ b ∨ b + k ≤ a

section
variable {m m' : Memory} {a b x : Int} {n k : Nat} {bs : List UInt8}

@[simp] theorem length_bytes (m : Memory) (a : Int) (n : Nat) : (bytes m a n).length = n := by
  simp [bytes]

theorem bytes_congr (h : ∀ k : Nat, k < n → m (a + k) = m' (a + k)) : bytes m a n = bytes m' a n :=
  List.map_congr_left fun k hk => h k (List.mem_range.1 hk)

theorem bytes_of (hl : bs.length = n) (h : ∀ k : Nat, k < n → m (a + k) = bs.getD k 0) :
    bytes m a n = bs := by
  refine List.ext_getElem (by simp [hl]) fun k h1 h2 => ?_
  simp only [bytes, List.getElem_map, List.getElem_range]
  rw [h k (by omega), List.getD_eq_getElem _ _ h2]

theorem put_outside (h : x < a ∨ a + bs.length ≤ x) : put m a bs x = m x := by
  unfold put
  rw [if_neg (by omega)]

theorem put_inside (h : k < bs.length) : put m a bs (a + k) = bs[k] := by
  unfold put
  rw [if_pos (by omega), show a + (k : Int) - a = k by omega, Int.toNat_natCast,
    List.getD_eq_getElem _ _ h]

theorem bytes_put_same (m : Memory) (a : Int) (bs : List UInt8) : bytes (put m a bs) a bs.length =
    bs :=
  bytes_of rfl fun k hk => by rw [put_inside hk, List.getD_eq_getElem _ _ hk]

/-- A run of bytes that a store does not meet. -/
theorem bytes_put_apart (h : Apart a n b bs.length) : bytes (put m b bs) a n = bytes m a n := by
  refine bytes_congr fun k hk => put_outside ?_
  unfold Apart at h
  omega

end

theorem bytes_take {m : Memory} {a : Int} {n k : Nat} (h : k ≤ n) :
    (bytes m a n).take k = bytes m a k := by
  unfold bytes
  rw [← List.map_take, List.take_range, Nat.min_eq_left h]

theorem bytes_succ (m : Memory) (a : Int) (n : Nat) :
    bytes m a (n + 1) = m a :: bytes m (a + 1) n := by
  unfold bytes
  rw [List.range_succ_eq_map, List.map_cons, List.map_map, Int.natCast_zero, Int.add_zero]
  refine congrArg (m a :: ·) (List.map_congr_left fun k _ => ?_)
  show m (a + (k + 1 : Nat)) = m (a + 1 + k)
  rw [Int.natCast_succ, Int.add_right_comm, Int.add_assoc]

/-! ## Little-endian numbers -/

/-- The `n` low bytes of a number, the lowest first. -/
def toLe : Nat → Nat → List UInt8
  | 0, _ => []
  | n + 1, x => UInt8.ofNat x :: toLe n (x / 256)

def ofLe (bs : List UInt8) : Nat := Nat.ofDigits 256 (bs.map UInt8.toNat)

@[simp] theorem length_toLe : ∀ n x : Nat, (toLe n x).length = n
  | 0, _ => rfl
  | n + 1, x => by rw [toLe, List.length_cons, length_toLe n]

theorem ofLe_toLe (n x : Nat) : ofLe (toLe n x) = x % 256 ^ n := by
  induction n generalizing x with
  | zero => simp [toLe, ofLe, Nat.mod_one]
  | succ n ih =>
    have hb : (UInt8.ofNat x).toNat = x % 256 := UInt8.toNat_ofNat'
    have hr : Nat.ofDigits 256 ((toLe n (x / 256)).map UInt8.toNat) = x / 256 % 256 ^ n :=
      ih (x / 256)
    unfold ofLe
    rw [toLe, List.map_cons, Nat.ofDigits_cons, hb, hr, Nat.pow_succ', Nat.mod_mul]

/-! ## Words -/

/-- A load of an `int32_t`. -/
def int32 (m : Memory) (a : Int) : Int := wrap32 (ofLe (bytes m a 4) : Nat)

abbrev putInt32 (m : Memory) (a x : Int) : Memory := put m a (toLe 4 (x % 2 ^ 32).toNat)

/-- Byte `o` of an `int32_t`. -/
def int32Byte (x : Int) (o : Nat) : UInt8 := (toLe 4 (x % 2 ^ 32).toNat).getD o 0

/-- A load of a `uint64_t`. -/
def uint64 (m : Memory) (a : Int) : Nat := ofLe (bytes m a 8)

abbrev putUint64 (m : Memory) (a : Int) (x : Nat) : Memory := put m a (toLe 8 x)

section
variable {m m' : Memory} {a b x : Int} {n k : Nat} {bs : List UInt8}

theorem int32_of_bytes (h : ∀ k : Nat, k < 4 → m (a + k) = int32Byte x k) (h1 : -2 ^ 31 ≤ x)
    (h2 : x < 2 ^ 31) : int32 m a = x := by
  unfold int32
  rw [bytes_of (length_toLe 4 _) h, ofLe_toLe, ← wrap32_of_range h1 h2]
  unfold wrap32
  rw [Int.bmod_def, Int.bmod_def]
  omega

theorem int32_put_same (h1 : -2 ^ 31 ≤ x) (h2 : x < 2 ^ 31) : int32 (putInt32 m a x) a = x := by
  refine int32_of_bytes (fun k hk => ?_) h1 h2
  have hk' : k < (toLe 4 (x % 2 ^ 32).toNat).length := by rwa [length_toLe]
  unfold putInt32 int32Byte
  rw [put_inside hk', List.getD_eq_getElem _ _ hk']

theorem int32_range (m : Memory) (a : Int) : -2 ^ 31 ≤ int32 m a ∧ int32 m a < 2 ^ 31 := by
  unfold int32 wrap32
  rw [Int.bmod_def]
  split <;> omega

theorem uint64_put_same : uint64 (putUint64 m a n) a = n % 2 ^ 64 := by
  have hb : bytes (putUint64 m a n) a 8 = toLe 8 n := by
    have := bytes_put_same m a (toLe 8 n)
    rwa [length_toLe] at this
  unfold uint64
  rw [hb, ofLe_toLe, show 256 ^ 8 = 2 ^ 64 by decide]

theorem int32_put_apart (h : Apart a 4 b bs.length) : int32 (put m b bs) a = int32 m a := by
  unfold int32
  rw [bytes_put_apart h]

theorem uint64_put_apart (h : Apart a 8 b bs.length) : uint64 (put m b bs) a = uint64 m a := by
  unfold uint64
  rw [bytes_put_apart h]

end

end Bytes

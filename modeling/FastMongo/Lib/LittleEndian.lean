import Mathlib.Data.List.Basic
import Mathlib.Algebra.Group.Nat.Defs

/-!
Little-endian byte strings of naturals: a natural written as a fixed number of bytes, least
significant first, and the natural a byte string denotes.
-/

namespace LittleEndian

/-- The `width` little-endian bytes of `n`; bits above `8 * width` are dropped. -/
def toBytes : Nat → Nat → List UInt8
  | 0, _ => []
  | width + 1, n => UInt8.ofNat n :: toBytes width (n / 256)

/-- The natural that a little-endian byte string denotes. -/
def ofBytes : List UInt8 → Nat
  | [] => 0
  | byte :: rest => byte.toNat + 256 * ofBytes rest

@[simp] theorem toBytes_zero (n : Nat) : toBytes 0 n = [] := rfl

@[simp] theorem toBytes_succ (width n : Nat) :
    toBytes (width + 1) n = UInt8.ofNat n :: toBytes width (n / 256) := rfl

@[simp] theorem length_toBytes (width n : Nat) : (toBytes width n).length = width := by
  induction width generalizing n with
  | zero => rfl
  | succ width ih => simp only [toBytes_succ, List.length_cons, ih]

@[simp] theorem ofBytes_nil : ofBytes [] = 0 := rfl

@[simp] theorem ofBytes_cons (byte : UInt8) (rest : List UInt8) :
    ofBytes (byte :: rest) = byte.toNat + 256 * ofBytes rest := rfl

/-- A byte string denotes a natural below `256` to its length. -/
theorem ofBytes_lt (bytes : List UInt8) : ofBytes bytes < 256 ^ bytes.length := by
  induction bytes with
  | nil => simp
  | cons byte rest ih =>
      have small := byte.toNat_lt
      rw [ofBytes_cons, List.length_cons, Nat.pow_succ]
      omega

/-- Byte strings of one length denote the same natural only when they are equal. -/
theorem ofBytes_injective {left right : List UInt8} (sameLength : left.length = right.length)
    (same : ofBytes left = ofBytes right) : left = right := by
  induction left generalizing right with
  | nil => simpa using sameLength.symm
  | cons byte rest ih =>
      cases right with
      | nil => simp at sameLength
      | cons other others =>
          have small := byte.toNat_lt
          have otherSmall := other.toNat_lt
          rw [ofBytes_cons, ofBytes_cons] at same
          -- the low byte and the rest are recovered by `% 256` and `/ 256`
          have lowByte : byte.toNat = other.toNat := by omega
          have high : ofBytes rest = ofBytes others := by omega
          rw [UInt8.toNat_inj.mp lowByte, ih (by simpa using sameLength) high]

end LittleEndian

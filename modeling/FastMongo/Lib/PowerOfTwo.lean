import Mathlib.Algebra.Group.Nat.Defs
import Mathlib.Order.Bounds.Defs

/-!
Powers of two reached by doubling. `doubleUntil n power` is the loop
`while (power < n) power = power * 2`; started from a power of two it reaches the least power of
two at or above both `power` and `n`, which for `n ≥ 2` past the start is the closed form
`2 ^ (log2 (n - 1) + 1)`.
-/

namespace PowerOfTwo

/-- The loop `while (power < n) power = power * 2` from a positive `power`. -/
def doubleUntil (n power : Nat) (positive : 0 < power) : Nat :=
  if below : power < n then doubleUntil n (power * 2) (Nat.mul_pos positive (by decide)) else power
termination_by n - power
decreasing_by exact Nat.nextPowerOfTwo_dec positive below

/-- The powers of two at or above both `low` and `n`. -/
def above (low n : Nat) : Set Nat :=
  {p | p.isPowerOfTwo ∧ low ≤ p ∧ n ≤ p}

/-- The exponent of the least power of two at or above `n`, for `n ≥ 2`, read off `n - 1`. -/
theorem log2_pred_eq {n j : Nat} (low : 2 ^ j < n) (high : n ≤ 2 ^ (j + 1)) : (n - 1).log2 = j := by
  have positive : n - 1 ≠ 0 := by
    have := Nat.one_le_two_pow (n := j)
    omega
  rw [Nat.log2_eq_iff positive]
  omega

/-- `2 ^ (log2 (n - 1) + 1)` is the least power of two at or above `n ≥ 2`. -/
theorem two_pow_log2_pred_isLeast {n : Nat} (two_le : 2 ≤ n) :
    IsLeast {p | p.isPowerOfTwo ∧ n ≤ p} (2 ^ ((n - 1).log2 + 1)) := by
  have positive : n - 1 ≠ 0 := by omega
  refine ⟨⟨⟨_, rfl⟩, ?_⟩, ?_⟩
  · have := Nat.lt_log2_self (n := n - 1)
    omega
  · rintro p ⟨⟨k, rfl⟩, reached⟩
    apply Nat.pow_le_pow_right (by decide)
    show (n - 1).log2 < k
    rw [Nat.log2_lt positive]
    omega

/-- From a power of two the loop stops at once or at the closed form. -/
theorem doubleUntil_eq (n power : Nat) (positive : 0 < power) (pow : power.isPowerOfTwo) :
    doubleUntil n power positive = if n ≤ power then power else 2 ^ ((n - 1).log2 + 1) := by
  fun_induction doubleUntil n power positive with
  | case1 power positive below ih =>
      obtain ⟨j, rfl⟩ := pow
      rw [ih (Nat.isPowerOfTwo_mul_two_of_isPowerOfTwo ⟨j, rfl⟩), if_neg (Nat.not_le.mpr below)]
      split
      · rename_i reached
        rw [← Nat.pow_succ] at reached ⊢
        rw [log2_pred_eq below reached]
      · rfl
  | case2 power positive reached =>
      rw [if_pos (Nat.not_lt.mp reached)]

/-- From a power of two the loop reaches the least power of two above both its start and `n`. -/
theorem doubleUntil_isLeast (n power : Nat) (positive : 0 < power) (pow : power.isPowerOfTwo) :
    IsLeast (above power n) (doubleUntil n power positive) := by
  rw [doubleUntil_eq n power positive pow]
  split
  · rename_i reached
    refine ⟨⟨pow, Nat.le_refl _, reached⟩, ?_⟩
    rintro p ⟨_, low, _⟩
    exact low
  · rename_i past
    have two_le : 2 ≤ n := by
      obtain ⟨j, rfl⟩ := pow
      have := Nat.one_le_two_pow (n := j)
      omega
    obtain ⟨⟨isPow, reached⟩, least⟩ := two_pow_log2_pred_isLeast two_le
    refine ⟨⟨isPow, by omega, reached⟩, ?_⟩
    rintro p ⟨pPow, _, pReached⟩
    exact least ⟨pPow, pReached⟩

end PowerOfTwo

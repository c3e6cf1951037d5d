import FastMongo.Base.Status
import FastMongo.Lib.PowerOfTwo
import Mathlib.Algebra.Group.Int.Defs

/-!
The sizes of `_BufBuilder` (`bson/util/builder.h`). `grow` and `reserveBytes` call
`grow_reallocate` when the bytes they need pass `size`; it picks the next size with the closed
form `1ULL << (64 - countLeadingZeros64(minSize - 1))` in place of the doubling loop it
replaced, checks it against `BufferMaxSize` and reallocates. The bytes of the buffer are not
modelled, and the allocator is a parameter: whether its `realloc` returns memory for a request,
or ends the process through `reportOutOfMemoryErrorAndExit`.
-/

namespace FastMongo.Bson

/-- `BufferMaxSize`. -/
def BufferMaxSize : Int32 := 64 * 1024 * 1024

/-- `countLeadingZeros64` of `platform/bits.h`: 64 for zero, `__builtin_clzll` otherwise. -/
def countLeadingZeros64 (num : UInt64) : Nat :=
  if num = 0 then 64 else num.toBitVec.clz.toNat

/-- The size `grow_reallocate` picks for `minSize`: 64 up to 64 bytes, otherwise the closed form
on `minSize - 1` as an `unsigned long long`, cast back to `int`. -/
def growSize (minSize : Int32) : Int32 :=
  if minSize ≤ 64 then 64
  else
    let v : UInt64 := (minSize - 1).toInt64.toUInt64
    ((1 : UInt64) <<< (64 - countLeadingZeros64 v).toUInt64).toUInt32.toInt32

/-- The loop the closed form replaced, `a = 64; while (a < minSize) a = a * 2;`, over unbounded
integers. -/
def replacedLoop (minSize : Int) : Nat :=
  PowerOfTwo.doubleUntil minSize.toNat 64 (by decide)

/-- The sizes of a `_BufBuilder`. -/
structure BufBuilder where
  l : Int32
  size : Int32
  reservedBytes : Int32
  deriving DecidableEq, Repr

/-- How `grow_reallocate` gives up: `msgasserted` throws an exception a caller may catch, while a
failed `mongoRealloc` ends the process. -/
inductive GrowFailure where
  | msgasserted (status : Status)
  | outOfMemory
  deriving DecidableEq, Repr

/-- The assertion `grow_reallocate` raises for a size `a` past the limit. -/
def growLimitStatus (a : Int32) : Status :=
  ⟨.location 13548, "BufBuilder attempted to grow() to " ++ toString a.toInt ++ " bytes, past the 64MB limit."⟩

namespace BufBuilder

/-- `grow_reallocate(minSize)`: the `int` size is passed to `realloc` as a `size_t`, by sign
extension. -/
def growReallocate (reallocates : UInt64 → Bool) (b : BufBuilder) (minSize : Int32) :
    Except GrowFailure BufBuilder :=
  let a := growSize minSize
  if a > BufferMaxSize then .error (.msgasserted (growLimitStatus a))
  else if reallocates a.toInt64.toUInt64 then .ok { b with size := a }
  else .error .outOfMemory

/-- `grow(by)`: the builder after claiming `amount` more bytes, and the pre-grow write position. -/
def grow (reallocates : UInt64 → Bool) (b : BufBuilder) (amount : Int32) :
    Except GrowFailure (BufBuilder × Int32) := do
  let oldlen := b.l
  let newLen := b.l + amount
  let minSize := newLen + b.reservedBytes
  let grown ← if minSize > b.size then growReallocate reallocates b minSize else pure b
  pure ({ grown with l := newLen }, oldlen)

/-- `reserveBytes(bytes)`: room for `bytes` more is made before they are counted as reserved. -/
def reserveBytes (reallocates : UInt64 → Bool) (b : BufBuilder) (bytes : Int32) :
    Except GrowFailure BufBuilder := do
  let minSize := b.l + b.reservedBytes + bytes
  let grown ← if minSize > b.size then growReallocate reallocates b minSize else pure b
  pure { grown with reservedBytes := grown.reservedBytes + bytes }

end BufBuilder

theorem toInt_bufferMaxSize : BufferMaxSize.toInt = 2 ^ 26 := by
  decide

/-- The loop from 64 reaches the least power of two at or above both 64 and `minSize`. -/
theorem replacedLoop_isLeast (minSize : Int) :
    IsLeast (PowerOfTwo.above 64 minSize.toNat) (replacedLoop minSize) :=
  PowerOfTwo.doubleUntil_isLeast _ 64 _ ⟨6, rfl⟩

theorem replacedLoop_eq (minSize : Int) :
    replacedLoop minSize = if minSize.toNat ≤ 64 then 64 else 2 ^ ((minSize.toNat - 1).log2 + 1) :=
  PowerOfTwo.doubleUntil_eq _ 64 _ ⟨6, rfl⟩

theorem countLeadingZeros64_eq {v : UInt64} (nonzero : v ≠ 0) :
    64 - countLeadingZeros64 v = v.toNat.log2 + 1 := by
  have bitsNonzero : v.toBitVec ≠ 0#64 := fun eq => nonzero (UInt64.toBitVec_inj.mp eq)
  have lower := BitVec.two_pow_sub_clz_le_toNat_of_ne_zero (by decide) bitsNonzero
  have upper := BitVec.toNat_lt_two_pow_sub_clz (x := v.toBitVec)
  have toNatNonzero : v.toNat ≠ 0 := fun eq => nonzero (UInt64.toNat_inj.mp (by rw [eq]; rfl))
  rw [UInt64.toNat_toBitVec] at lower upper
  have clzBelow : v.toBitVec.clz.toNat < 64 := by
    apply Nat.lt_of_not_le
    intro atLeast
    rw [show 64 - v.toBitVec.clz.toNat = 0 by omega, Nat.pow_zero] at upper
    exact toNatNonzero (by omega)
  have log2Eq : v.toNat.log2 = 63 - v.toBitVec.clz.toNat := by
    rw [Nat.log2_eq_iff toNatNonzero]
    refine ⟨lower, ?_⟩
    rw [show 63 - v.toBitVec.clz.toNat + 1 = 64 - v.toBitVec.clz.toNat by omega]
    exact upper
  rw [countLeadingZeros64, if_neg nonzero, log2Eq]
  omega

/-- Below `2 ^ 63` the closed form is the power of two past the top bit of `v`. -/
theorem closedForm_toNat {v : UInt64} (nonzero : v ≠ 0) (small : v.toNat < 2 ^ 63) :
    ((1 : UInt64) <<< (64 - countLeadingZeros64 v).toUInt64).toNat = 2 ^ (v.toNat.log2 + 1) := by
  have exponentSmall : v.toNat.log2 + 1 < 64 := by
    have := (Nat.log2_lt (fun eq => nonzero (UInt64.toNat_inj.mp (by rw [eq]; rfl)))).mpr small
    omega
  have shift : ((64 - countLeadingZeros64 v).toUInt64).toNat % 64 = v.toNat.log2 + 1 := by
    rw [countLeadingZeros64_eq nonzero, Nat.toUInt64_eq, UInt64.toNat_ofNat']
    omega
  rw [UInt64.toNat_shiftLeft, shift, UInt64.toNat_one, Nat.shiftLeft_eq, Nat.one_mul,
    Nat.mod_eq_of_lt (Nat.pow_lt_pow_right (by decide) exponentSmall)]

/-- The cast of a 64-bit value below `2 ^ 31` to `int` keeps it. -/
theorem toInt_toInt32_of_lt {x : UInt64} (small : x.toNat < 2 ^ 31) : x.toUInt32.toInt32.toInt = x.toNat := by
  simp only [Int32.toInt, UInt32.toBitVec_toInt32, BitVec.toInt, UInt32.toNat_toBitVec, UInt64.toNat_toUInt32]
  split <;> omega

/-- The cast of `2 ^ 31` to `int` is `INT_MIN`. -/
theorem toInt32_two_pow_31 {x : UInt64} (eq : x.toNat = 2 ^ 31) : x.toUInt32.toInt32 = Int32.minValue := by
  have bits : x = 2 ^ 31 := UInt64.toNat_inj.mp (by rw [eq]; rfl)
  rw [bits]
  decide

/-- Past 64, `minSize - 1` as an `unsigned long long` is `minSize - 1`. -/
theorem toNat_pred_toUInt64 {minSize : Int32} (large : 64 < minSize.toInt) :
    (minSize - 1).toInt64.toUInt64.toNat = minSize.toInt.toNat - 1 := by
  have pred : (minSize - 1).toInt = minSize.toInt - 1 :=
    Int32.toInt_sub_of_le minSize 1 (by decide) (Int32.le_iff_toInt_le.mpr (by simp; omega))
  have nonnegative : 0 ≤ (minSize - 1).toInt64 := by
    rw [Int64.le_iff_toInt_le, Int32.toInt_toInt64, pred]
    simp
    omega
  rw [Int64.toNat_toUInt64_of_le nonnegative, ← Int64.toNat_toInt, Int32.toInt_toInt64, pred]
  omega

/-- The closed form before the cast back to `int`: past 64 it is the loop's power of two. -/
theorem closedForm_pred_toNat {minSize : Int32} (large : 64 < minSize.toInt) :
    ((1 : UInt64) <<< (64 - countLeadingZeros64 (minSize - 1).toInt64.toUInt64).toUInt64).toNat =
      replacedLoop minSize.toInt := by
  have pred := toNat_pred_toUInt64 large
  have below := minSize.toInt_lt
  have nonzero : (minSize - 1).toInt64.toUInt64 ≠ 0 := by
    intro eq
    rw [eq, UInt64.toNat_zero] at pred
    omega
  rw [closedForm_toNat nonzero (by omega), pred, replacedLoop_eq, if_neg (by omega)]

theorem growSize_of_le {minSize : Int32} (small : minSize.toInt ≤ 64) : growSize minSize = 64 := by
  rw [growSize, if_pos (Int32.le_iff_toInt_le.mpr (by simpa using small))]

/-- Past 64 bytes the size is the closed form, cast back to `int`. -/
theorem growSize_of_gt_64 {minSize : Int32} (large : 64 < minSize.toInt) :
    growSize minSize =
      ((1 : UInt64) <<< (64 - countLeadingZeros64 (minSize - 1).toInt64.toUInt64).toUInt64).toUInt32.toInt32 := by
  have notSmall : ¬ minSize ≤ 64 := fun small => by
    have := Int32.le_iff_toInt_le.mp small
    simp at this
    omega
  rw [growSize, if_neg notSmall]

/-- Up to `2 ^ 30` the closed form is the loop's result. -/
theorem toInt_growSize {minSize : Int32} (fits : minSize.toInt ≤ 2 ^ 30) :
    (growSize minSize).toInt = replacedLoop minSize.toInt := by
  by_cases large : 64 < minSize.toInt
  · have form := closedForm_pred_toNat large
    -- `2 ^ 30` is a power of two above `minSize`, so the loop stops at or below it
    have bounded : replacedLoop minSize.toInt ≤ 2 ^ 30 :=
      (replacedLoop_isLeast minSize.toInt).2 ⟨⟨30, rfl⟩, by decide, by omega⟩
    rw [growSize_of_gt_64 large, toInt_toInt32_of_lt (by omega), form]
  · rw [growSize_of_le (by omega), replacedLoop_eq, if_pos (by omega)]
    decide

/-- Past `2 ^ 30` the closed form is `2 ^ 31`, and its cast back to `int` is `INT_MIN`. -/
theorem growSize_of_gt {minSize : Int32} (huge : 2 ^ 30 < minSize.toInt) :
    growSize minSize = Int32.minValue ∧ replacedLoop minSize.toInt = 2 ^ 31 := by
  have large : 64 < minSize.toInt := by omega
  have loop : replacedLoop minSize.toInt = 2 ^ 31 := by
    have below := minSize.toInt_lt
    rw [replacedLoop_eq, if_neg (by omega), PowerOfTwo.log2_pred_eq (j := 30) (by omega) (by omega)]
  refine ⟨?_, loop⟩
  rw [growSize_of_gt_64 large]
  exact toInt32_two_pow_31 (by rw [closedForm_pred_toNat large, loop])

namespace BufBuilder

/-- `grow` hands `l + by + reservedBytes` to `grow_reallocate` once it passes `size`. -/
theorem grow_of_lt (reallocates : UInt64 → Bool) (b : BufBuilder) (amount : Int32)
    (needed : b.size < b.l + amount + b.reservedBytes) :
    b.grow reallocates amount =
      (b.growReallocate reallocates (b.l + amount + b.reservedBytes)).map
        fun grown => ({ grown with l := b.l + amount }, b.l) := by
  simp only [grow, gt_iff_lt, if_pos needed]
  cases b.growReallocate reallocates (b.l + amount + b.reservedBytes) <;> rfl

/-- Up to `2 ^ 30` the size is the loop's, and the limit is asserted exactly when it is past
`BufferMaxSize`. Past `2 ^ 30` the loop's size is past the limit too, but the cast size is
`INT_MIN`, no assertion is raised, and `realloc` is asked for `(size_t)INT_MIN`. -/
theorem growReallocate_misses_limit (reallocates : UInt64 → Bool) (b : BufBuilder) (minSize : Int32) :
    (minSize.toInt ≤ 2 ^ 30 →
      (b.growReallocate reallocates minSize = .error (.msgasserted (growLimitStatus (growSize minSize))) ↔
        BufferMaxSize.toInt < replacedLoop minSize.toInt) ∧
      ∀ grown, b.growReallocate reallocates minSize = .ok grown →
        grown.size.toInt = replacedLoop minSize.toInt ∧ minSize.toInt ≤ grown.size.toInt) ∧
    (2 ^ 30 < minSize.toInt →
      BufferMaxSize.toInt < replacedLoop minSize.toInt ∧
      b.growReallocate reallocates minSize =
        if reallocates 0xFFFFFFFF80000000 then .ok { b with size := Int32.minValue } else .error .outOfMemory) := by
  constructor
  · intro fits
    have sizeEq := toInt_growSize fits
    have pastIff : growSize minSize > BufferMaxSize ↔ BufferMaxSize.toInt < replacedLoop minSize.toInt := by
      rw [gt_iff_lt, Int32.lt_iff_toInt_lt, sizeEq]
    constructor
    · rw [← pastIff]
      unfold growReallocate
      dsimp only
      split
      · simpa
      · rename_i within
        simp only [within, iff_false]
        split <;> simp
    · intro grown grew
      unfold growReallocate at grew
      dsimp only at grew
      split at grew
      · cases grew
      · split at grew
        · cases grew
          have reached := (replacedLoop_isLeast minSize.toInt).1.2.2
          refine ⟨sizeEq, ?_⟩
          show minSize.toInt ≤ (growSize minSize).toInt
          omega
        · cases grew
  · intro huge
    obtain ⟨wraps, loop⟩ := growSize_of_gt huge
    refine ⟨by rw [loop, toInt_bufferMaxSize]; decide, ?_⟩
    have request : Int32.minValue.toInt64.toUInt64 = 0xFFFFFFFF80000000 := by decide
    unfold growReallocate
    rw [wraps, if_neg (by decide), request]

theorem growReallocate_misses_limit_freshBuilder :
    ((1000 : Int32).toInt ≤ 2 ^ 30 ∧
      growReallocate (fun _ => true) ⟨0, 512, 0⟩ 1000 = .ok ⟨0, 1024, 0⟩ ∧
      (1024 : Int32).toInt = replacedLoop (1000 : Int32).toInt) ∧
    (2 ^ 30 < (1073741825 : Int32).toInt ∧ BufferMaxSize.toInt < replacedLoop (1073741825 : Int32).toInt ∧
      grow (fun _ => true) ⟨0, 512, 0⟩ 1073741825 = .ok (⟨1073741825, Int32.minValue, 0⟩, 0)) := by
  have fits : (1000 : Int32).toInt ≤ 2 ^ 30 := by decide
  have grew : growReallocate (fun _ => true) ⟨0, 512, 0⟩ 1000 = .ok ⟨0, 1024, 0⟩ := by rfl
  have huge : 2 ^ 30 < (1073741825 : Int32).toInt := by decide
  have wraps := (growReallocate_misses_limit (fun _ => true) ⟨0, 512, 0⟩ 1073741825).2 huge
  refine ⟨⟨fits, grew, ((growReallocate_misses_limit (fun _ => true) ⟨0, 512, 0⟩ 1000).1 fits).2 _ grew |>.1⟩,
    huge, wraps.1, ?_⟩
  rw [grow_of_lt _ _ _ (by decide)]
  show Except.map _ (growReallocate (fun _ => true) ⟨0, 512, 0⟩ 1073741825) = _
  rw [wraps.2]
  rfl

end BufBuilder

end FastMongo.Bson

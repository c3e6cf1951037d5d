import FastMongo.Util.DecimalCounter

/-!
`ItoA` of `util/itoa.h` and `util/itoa.cpp`: the decimal text of a `uint32_t`, the field names
`"0"`, `"1"`, ... that `BSONArrayBuilder` writes. Below 1000 the text is read from `kIndexTable`,
the texts of 0 to 999 one after another, each ended by a NUL; from 1000 the digits are written
into `_buf` by the same loop as `DecimalCounter`'s constructor, ending before the buffer's last
byte. Both give the decimal text of the value, so a `DecimalCounter` that counts from `n` shows,
after `k` increments, what `ItoA(n + k)` shows.
-/

namespace FastMongo

open DecimalCounter

/-- One entry of `kIndexTable`: the text of `i` and its NUL. -/
def indexEntry (i : Nat) : List UInt8 :=
  decimalBytes i ++ [0]

/-- The entries of `0` to `n - 1`. -/
def indexTableUpTo (n : Nat) : List UInt8 :=
  (List.range n).flatMap indexEntry

/-- `kIndexTable`: the literal `"0\0" "1\0" ... "999\0"` with the NUL that ends the array. -/
def kIndexTable : List UInt8 :=
  indexTableUpTo 1000 ++ [0]

/-- `ItoA::kBufSize`. -/
def ItoA.kBufSize : Nat := 11

/-- An `ItoA`: the memory from `_str` on, in the index table or in `_buf`, and `_len`. -/
structure ItoA where
  str : List UInt8
  len : Nat

namespace ItoA

/-- `ItoA(val)`. One, two or three digits are found in the table at `2 * val`,
`2 * 10 + 3 * (val - 10)` and `2 * 10 + 3 * 90 + 4 * (val - 100)`; from 1000 on, `_buf` ends
with a NUL and the digit loop writes the digits before it. -/
def ofValue (uninit : Vector UInt8 kBufSize) (val : UInt32) : ItoA :=
  if val < 10 then ⟨kIndexTable.drop (2 * val.toNat), 1⟩
  else if val < 100 then ⟨kIndexTable.drop (2 * 10 + 3 * (val.toNat - 10)), 2⟩
  else if val < 1000 then ⟨kIndexTable.drop (2 * 10 + 3 * 90 + 4 * (val.toNat - 100)), 3⟩
  else
    let len := kBufSize - 1
    let written := writeDigits (uninit.toList.set len 0) len val.toNat
    ⟨written.1.drop written.2, len - written.2⟩

/-- `operator StringData()`: `_len` bytes from `_str`. -/
def toStringData (itoa : ItoA) : StringData :=
  ⟨itoa.str.take itoa.len, true, nofun⟩

end ItoA

theorem indexTableUpTo_succ (n : Nat) :
    indexTableUpTo (n + 1) = indexTableUpTo n ++ indexEntry n := by
  simp [indexTableUpTo, List.range_succ]

/-- The digits of `i` are one, two or three as `i` is below 10, 100 or 1000. -/
theorem length_decimalBytes_of_lt_thousand {i : Nat} (small : i < 1000) :
    (decimalBytes i).length = if i < 10 then 1 else if i < 100 then 2 else 3 := by
  have nonempty : 0 < (decimalBytes i).length := List.length_pos_iff.mpr (decimalBytes_ne_nil i)
  have three := (length_decimalBytes_le_iff (n := i) (k := 3) (by decide)).mpr small
  have one := length_decimalBytes_le_iff (n := i) (k := 1) (by decide)
  have two := length_decimalBytes_le_iff (n := i) (k := 2) (by decide)
  simp only [Nat.pow_one, Nat.reducePow] at one two
  split_ifs with below10 below100 <;> omega

/-- Where the entry of `n` starts: two bytes for each one-digit entry before it, three for each
two-digit one and four for each three-digit one. -/
theorem length_indexTableUpTo {n : Nat} (within : n ≤ 1000) :
    (indexTableUpTo n).length =
      2 * min n 10 + 3 * (min n 100 - min n 10) + 4 * (min n 1000 - min n 100) := by
  induction n with
  | zero => rfl
  | succ n ih =>
      have width := length_decimalBytes_of_lt_thousand (i := n) (by omega)
      rw [indexTableUpTo_succ, List.length_append, ih (by omega), indexEntry, List.length_append,
        width, List.length_singleton]
      split_ifs <;> omega

/-- From the start of the entry of `i`, the table holds the text of `i` and its NUL. -/
theorem drop_kIndexTable {i : Nat} (small : i < 1000) :
    ∃ rest, kIndexTable.drop (indexTableUpTo i).length = decimalBytes i ++ 0 :: rest := by
  have split : List.range 1000 = List.range i ++ i :: (List.range (1000 - (i + 1))).map
      (i + 1 + ·) := by
    rw [show 1000 = i + 1 + (1000 - (i + 1)) by omega, List.range_add, List.range_succ]
    simp
  have whole : kIndexTable = indexTableUpTo i ++ (decimalBytes i ++
      0 :: (((List.range (1000 - (i + 1))).map (i + 1 + ·)).flatMap indexEntry ++ [0])) := by
    simp only [kIndexTable, indexTableUpTo]
    rw [split, List.flatMap_append, List.flatMap_cons]
    simp [indexEntry]
  exact ⟨_, by rw [whole, List.drop_left]⟩

/-- A table read of the text of `i` at the start of its entry. -/
theorem take_drop_kIndexTable {i : Nat} (small : i < 1000) :
    (kIndexTable.drop (indexTableUpTo i).length).take (decimalBytes i).length = decimalBytes i := by
  obtain ⟨rest, entry⟩ := drop_kIndexTable small
  rw [entry, List.take_left' rfl]

/-- `ItoA` gives the decimal text of its value: from the table below 1000, from the digit loop
above. -/
theorem ItoA.toStringData_ofValue (uninit : Vector UInt8 ItoA.kBufSize) (val : UInt32) :
    (ItoA.ofValue uninit val).toStringData.bytes = decimalBytes val.toNat := by
  have table : ∀ {i offset len : Nat}, i < 1000 → offset = (indexTableUpTo i).length →
      len = (decimalBytes i).length → (kIndexTable.drop offset).take len = decimalBytes i := by
    rintro i offset len small rfl rfl
    exact take_drop_kIndexTable small
  have value := val.toNat_lt
  simp only [ItoA.ofValue, ItoA.toStringData]
  split_ifs with below10 below100 below1000
  · have small : val.toNat < 10 := UInt32.lt_iff_toNat_lt.mp below10
    exact table (by omega) (by rw [length_indexTableUpTo (by omega)]; omega)
      (by rw [length_decimalBytes_of_lt_thousand (by omega), if_pos small])
  · have small : val.toNat < 100 := UInt32.lt_iff_toNat_lt.mp below100
    have large : ¬val.toNat < 10 := fun lt => below10 (UInt32.lt_iff_toNat_lt.mpr lt)
    exact table (by omega) (by rw [length_indexTableUpTo (by omega)]; omega)
      (by rw [length_decimalBytes_of_lt_thousand (by omega), if_neg large, if_pos small])
  · have small : val.toNat < 1000 := UInt32.lt_iff_toNat_lt.mp below1000
    have large : ¬val.toNat < 100 := fun lt => below100 (UInt32.lt_iff_toNat_lt.mpr lt)
    exact table small (by rw [length_indexTableUpTo (by omega)]; omega)
      (by rw [length_decimalBytes_of_lt_thousand small, if_neg (by omega), if_neg large])
  · -- a `uint32_t` has at most ten digits: the loop stays in the ten bytes before the NUL
    have large : ¬val.toNat < 1000 := fun lt => below1000 (UInt32.lt_iff_toNat_lt.mpr lt)
    have uninitLength : uninit.toList.length = 11 := Vector.length_toList
    have digits : (decimalBytes val.toNat).length ≤ 10 :=
      (length_decimalBytes_le_iff (by decide)).mpr (Nat.lt_trans value (by decide))
    have written := writeDigits_eq (uninit.toList.set (ItoA.kBufSize - 1) 0) (ItoA.kBufSize - 1)
      val.toNat (by omega) digits (by rw [List.length_set, uninitLength]; decide)
    rw [written]
    dsimp only
    have startsAt : ((uninit.toList.set (ItoA.kBufSize - 1) 0).take
        (ItoA.kBufSize - 1 - (decimalBytes val.toNat).length)).length =
        ItoA.kBufSize - 1 - (decimalBytes val.toNat).length := by
      rw [List.length_take, List.length_set, uninitLength]
      simp only [ItoA.kBufSize]
      omega
    rw [List.append_assoc, List.drop_left' startsAt,
      show ItoA.kBufSize - 1 - (ItoA.kBufSize - 1 - (decimalBytes val.toNat).length) =
        (decimalBytes val.toNat).length by simp only [ItoA.kBufSize]; omega,
      List.take_left' rfl]

/-- The counter and `ItoA` agree: a `DecimalCounter` started at `n` and incremented `k` times shows
the text that `ItoA(n + k)` builds, the decimal text of `n + k`, while `n + k` is a `uint32_t`. -/
theorem decimalCounter_agrees_with_itoa (counterBuf : Vector UInt8 kBufSize)
    (itoaBuf : Vector UInt8 ItoA.kBufSize) (n : UInt32) (k : Nat) (fits : n.toNat + k < 2 ^ 32) :
    ∃ c, (ofStart counterBuf n).incrementTimes k = some c ∧
      c.toStringData.bytes = (ItoA.ofValue itoaBuf (n + k.toUInt32)).toStringData.bytes ∧
      (ItoA.ofValue itoaBuf (n + k.toUInt32)).toStringData.bytes = decimalBytes (n.toNat + k) := by
  have sum : (n + k.toUInt32).toNat = n.toNat + k := by
    rw [UInt32.toNat_add]
    simp only [Nat.toUInt32_eq, UInt32.toNat_ofNat']
    omega
  obtain ⟨c, ran, holds⟩ := (represents_ofStart counterBuf n).incrementTimes k
    (Nat.lt_trans fits (by decide))
  have itoa := ItoA.toStringData_ofValue itoaBuf (n + k.toUInt32)
  rw [sum] at itoa
  exact ⟨c, ran, holds.trans itoa.symm, itoa⟩

theorem decimalCounter_agrees_with_itoa_nines :
    (999 : UInt32).toNat + 1 < 2 ^ 32 ∧
      ∃ c, (ofStart (Vector.replicate kBufSize 0) 999).incrementTimes 1 = some c ∧
        c.toStringData.bytes =
          (ItoA.ofValue (Vector.replicate ItoA.kBufSize 0) (999 + (1 : Nat).toUInt32)).toStringData.bytes ∧
        (ItoA.ofValue (Vector.replicate ItoA.kBufSize 0) (999 + (1 : Nat).toUInt32)).toStringData.bytes =
          decimalBytes ((999 : UInt32).toNat + 1) :=
  ⟨by decide, decimalCounter_agrees_with_itoa (Vector.replicate kBufSize 0)
    (Vector.replicate ItoA.kBufSize 0) 999 1 (by decide)⟩

end FastMongo

import FastMongo.Lib.LittleEndian

/-!
Equality and comparison of `StringData` (`base/string_data.h`). `compare` runs `memcmp` over the
shorter length and then compares sizes; `operator==` compares sizes, and for at most eight bytes
copies each string into a zeroed `uint64_t` and compares the two words, whose value depends on
the machine's byte order.
-/

namespace FastMongo

open LittleEndian

/-- The byte order in which a `uint64_t` is laid out in memory. -/
inductive ByteOrder where
  | littleEndian
  | bigEndian
  deriving DecidableEq, Repr

/-- A `StringData`: the bytes it refers to, and whether `_data` is a pointer at all. A null
`_data` comes only with size zero. -/
structure StringData where
  bytes : List UInt8
  hasData : Bool
  nullEmpty : hasData = false → bytes = []

namespace StringData

/-- `size()`. -/
def size (s : StringData) : Nat :=
  s.bytes.length

/-- `memcmp(a, b, n)`: the difference of the first differing bytes among the first `n`, as
unsigned chars, or zero. -/
def memcmp : List UInt8 → List UInt8 → Nat → Int
  | x :: xs, y :: ys, n + 1 => if x = y then memcmp xs ys n else (x.toNat : Int) - y.toNat
  | _, _, _ => 0

/-- `StringData::compare`: `memcmp` over the shorter size, skipped when either pointer is null,
then the sizes. -/
def compare (self other : StringData) : Int :=
  let res := if self.hasData && other.hasData then memcmp self.bytes other.bytes (min self.size other.size)
    else 0
  if res ≠ 0 then (if res > 0 then 1 else -1)
  else if self.size = other.size then 0
  else if self.size > other.size then 1 else -1

/-- `uint64_t a = 0; memcpy(&a, data, sz)` for `sz ≤ 8`: the eight bytes of memory, the string's
followed by zeros, read as a word in the machine's byte order. -/
def memoryWord (order : ByteOrder) (bytes : List UInt8) : UInt64 :=
  let memory := bytes ++ List.replicate (8 - bytes.length) 0
  match order with
  | .littleEndian => UInt64.ofNat (ofBytes memory)
  | .bigEndian => UInt64.ofNat (ofBytes memory.reverse)

/-- `operator==(StringData, StringData)`: different sizes differ; up to eight bytes the words
are compared; longer strings go through `compare`. -/
def equals (order : ByteOrder) (lhs rhs : StringData) : Bool :=
  let sz := lhs.size
  if sz ≠ rhs.size then false
  else if sz ≤ 8 then memoryWord order lhs.bytes == memoryWord order rhs.bytes
  else lhs.compare rhs == 0

theorem memcmp_eq_zero_iff {left right : List UInt8} {n : Nat} (leftLong : n ≤ left.length)
    (rightLong : n ≤ right.length) : memcmp left right n = 0 ↔ left.take n = right.take n := by
  induction n generalizing left right with
  | zero => simp [memcmp]
  | succ n ih =>
      cases left with
      | nil => simp at leftLong
      | cons x xs =>
          cases right with
          | nil => simp at rightLong
          | cons y ys =>
              simp only [List.length_cons, Nat.add_le_add_iff_right] at leftLong rightLong
              by_cases same : x = y
              · simp [memcmp, same, ih leftLong rightLong]
              · -- the first bytes differ, and so does their difference from zero
                have apart : (x.toNat : Int) - y.toNat ≠ 0 := by
                  have differ : x.toNat ≠ y.toNat := fun eq => same (UInt8.toNat_inj.mp eq)
                  omega
                simp [memcmp, same, apart]

/-- `compare` is zero when `memcmp` found no difference and the sizes agree. -/
theorem compare_eq_zero_iff_res (lhs rhs : StringData) :
    lhs.compare rhs = 0 ↔
      (if lhs.hasData && rhs.hasData then memcmp lhs.bytes rhs.bytes (min lhs.size rhs.size) else 0) = 0 ∧
        lhs.size = rhs.size := by
  unfold compare
  dsimp only
  generalize (if lhs.hasData && rhs.hasData then memcmp lhs.bytes rhs.bytes (min lhs.size rhs.size)
    else 0) = res
  by_cases found : res = 0
  · by_cases sameSize : lhs.size = rhs.size
    · simp [found, sameSize]
    · simp only [found, ne_eq, not_true_eq_false, if_false, sameSize, and_false, iff_false]
      split <;> simp
  · simp only [found, ne_eq, not_false_eq_true, if_true, false_and, iff_false]
    split <;> simp

/-- `compare` is zero exactly on equal bytes. -/
theorem compare_eq_zero_iff (lhs rhs : StringData) : lhs.compare rhs = 0 ↔ lhs.bytes = rhs.bytes := by
  -- the bytes over the shorter size agree, whether or not `memcmp` ran
  have prefixZero : (if lhs.hasData && rhs.hasData then
      memcmp lhs.bytes rhs.bytes (min lhs.size rhs.size) else 0) = 0 ↔
      lhs.bytes.take (min lhs.size rhs.size) = rhs.bytes.take (min lhs.size rhs.size) := by
    split
    · exact memcmp_eq_zero_iff (Nat.min_le_left _ _) (Nat.min_le_right _ _)
    · rename_i noData
      have oneEmpty : lhs.bytes = [] ∨ rhs.bytes = [] := by
        cases leftData : lhs.hasData
        · exact .inl (lhs.nullEmpty leftData)
        · cases rightData : rhs.hasData
          · exact .inr (rhs.nullEmpty rightData)
          · simp [leftData, rightData] at noData
      rcases oneEmpty with empty | empty <;> simp [size, empty]
  rw [compare_eq_zero_iff_res, prefixZero]
  constructor
  · rintro ⟨agree, sameSize⟩
    simp only [size] at agree sameSize
    rw [sameSize, Nat.min_self, List.take_length] at agree
    rw [← sameSize, List.take_length] at agree
    exact agree
  · intro same
    simp [size, same]

/-- Up to eight bytes, the memory word of a string determines it among strings of its size, in
either byte order. -/
theorem memoryWord_injective (order : ByteOrder) {left right : List UInt8} (short : left.length ≤ 8)
    (sameLength : left.length = right.length) (same : memoryWord order left = memoryWord order right) :
    left = right := by
  have memoryLength : ∀ bytes : List UInt8, bytes.length ≤ 8 →
      (bytes ++ List.replicate (8 - bytes.length) 0).length = 8 := by
    intro bytes short
    simp only [List.length_append, List.length_replicate]
    omega
  -- a word of eight bytes is below `2 ^ 64`, so `UInt64.ofNat` keeps it
  have fits : ∀ memory : List UInt8, memory.length = 8 → ofBytes memory < 2 ^ 64 := by
    intro memory eight
    have bound := ofBytes_lt memory
    rw [eight] at bound
    exact Nat.lt_of_lt_of_le bound (by decide)
  have keep : ∀ a b : Nat, a < 2 ^ 64 → b < 2 ^ 64 → UInt64.ofNat a = UInt64.ofNat b → a = b := by
    intro a b smallA smallB eq
    have back := congrArg UInt64.toNat eq
    rw [UInt64.toNat_ofNat', UInt64.toNat_ofNat', Nat.mod_eq_of_lt smallA, Nat.mod_eq_of_lt smallB] at back
    exact back
  have leftMemory := memoryLength left short
  have rightMemory := memoryLength right (sameLength ▸ short)
  have memorySame : left ++ List.replicate (8 - left.length) 0 = right ++ List.replicate (8 - right.length) 0 := by
    cases order with
    | littleEndian =>
        exact ofBytes_injective (by rw [leftMemory, rightMemory])
          (keep _ _ (fits _ leftMemory) (fits _ rightMemory) same)
    | bigEndian =>
        apply List.reverse_injective
        exact ofBytes_injective (by simp only [List.length_reverse]; rw [leftMemory, rightMemory])
          (keep _ _ (fits _ (by rw [List.length_reverse, leftMemory]))
            (fits _ (by rw [List.length_reverse, rightMemory])) same)
  rw [sameLength] at memorySame
  exact List.append_cancel_right memorySame

theorem equals_iff_compare_eq_zero (order : ByteOrder) (lhs rhs : StringData) :
    (equals order lhs rhs = true ↔ lhs.compare rhs = 0) ∧ (lhs.compare rhs = 0 ↔ lhs.bytes = rhs.bytes) := by
  refine ⟨?_, compare_eq_zero_iff lhs rhs⟩
  rw [compare_eq_zero_iff]
  unfold equals
  dsimp only
  split
  · -- different sizes: neither equal nor the same bytes
    rename_i differ
    simp only [Bool.false_eq_true, false_iff]
    intro same
    exact differ (by simp [size, same])
  · rename_i sameSize
    have sameLength : lhs.bytes.length = rhs.bytes.length := by simpa [size] using sameSize
    split
    · rename_i short
      simp only [beq_iff_eq]
      exact ⟨memoryWord_injective order short sameLength, fun same => by rw [same]⟩
    · simp [compare_eq_zero_iff]

example : equals .bigEndian ⟨[0x61, 0x62], true, nofun⟩ ⟨[0x61, 0x62], true, nofun⟩ = true ∧
    equals .littleEndian ⟨[0x61, 0], true, nofun⟩ ⟨[0x61], true, nofun⟩ = false := by decide

end StringData

end FastMongo

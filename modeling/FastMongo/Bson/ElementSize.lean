import FastMongo.Bson.Value
import FastMongo.Base.Status
import FastMongo.Lib.LittleEndian

/-!
`BSONElement::size` (`bsonelement.cpp`) over the bytes an element starts with: the type byte,
the field name up to its NUL and what follows. `size(int maxLen)` switches on the type and
asserts on a type it does not know; `size()` reads a 32-entry table of fixed sizes and two bit
masks, indexed by the type byte read as a `signed char`. Bytes the functions read beyond the
given ones, and the bytes before the table that a negative index reads, are outside what the
element determines: the first read as zero and the second are a parameter.
-/

namespace FastMongo.Bson

open LittleEndian

/-- `static_cast<BSONType>` of a type byte: the member of the enumeration it names, if any. -/
def BSONType.ofByte : UInt8 → Option BSONType
  | 0x00 => some .eoo
  | 0x01 => some .numberDouble
  | 0x02 => some .string
  | 0x03 => some .object
  | 0x04 => some .array
  | 0x05 => some .binData
  | 0x06 => some .undefined
  | 0x07 => some .jstOID
  | 0x08 => some .bool
  | 0x09 => some .date
  | 0x0A => some .jstNULL
  | 0x0B => some .regEx
  | 0x0C => some .dbRef
  | 0x0D => some .code
  | 0x0E => some .symbol
  | 0x0F => some .codeWScope
  | 0x10 => some .numberInt
  | 0x11 => some .bsonTimestamp
  | 0x12 => some .numberLong
  | 0x13 => some .numberDecimal
  | 0x7F => some .maxKey
  | 0xFF => some .minKey
  | _ => none

theorem BSONType.ofByte_byte (type : BSONType) : BSONType.ofByte type.byte = some type := by
  cases type <;> rfl

/-- `strlen`: the bytes before the first NUL, all of them when there is none. -/
def strlen (bytes : List UInt8) : Nat :=
  (bytes.takeWhile (· != 0)).length

/-- `strnlen(p, n)`. -/
def strnlen (bytes : List UInt8) (n : Nat) : Nat :=
  min (strlen bytes) n

/-- The bytes at the start of an element: the type byte, the field name (no NUL in it), and
the bytes after the name's NUL, where `value()` points. -/
structure ElementBytes where
  typeByte : UInt8
  fieldName : List UInt8
  value : List UInt8
  nameTerminated : 0 ∉ fieldName

namespace ElementBytes

/-- The bytes from `rawdata()` on. -/
def bytes (elem : ElementBytes) : List UInt8 :=
  elem.typeByte :: elem.fieldName ++ 0 :: elem.value

/-- `fieldNameSize()`: `strlen(fieldName()) + 1`, where `fieldName()` of an EOO element is the
empty string. -/
def fieldNameSize (elem : ElementBytes) : Int32 :=
  if elem.typeByte = 0 then 1 else Int32.ofNat (strlen (elem.fieldName ++ 0 :: elem.value) + 1)

/-- `type()`: the type byte read as a `signed char`. -/
def type (elem : ElementBytes) : Int :=
  elem.typeByte.toInt8.toInt

/-- `valuestrsize()`: the little-endian `int` at `value()`. -/
def valuestrsize (elem : ElementBytes) : Int32 :=
  Int32.ofNat (ofBytes (elem.value.take 4))

/-- `objsize()`: the little-endian `uint32_t` at `value()`, which the callers store in an
`int`. -/
def objsize (elem : ElementBytes) : Int32 :=
  Int32.ofNat (ofBytes (elem.value.take 4))

/-- The two C strings of a regular expression, each with its NUL, with the lengths given. -/
def regexSize (len1 len2 : Nat) : Int32 :=
  Int32.ofNat (len1 + 1 + len2 + 1)

theorem strlen_name (elem : ElementBytes) : strlen (elem.fieldName ++ 0 :: elem.value) = elem.fieldName.length := by
  have noNul : ∀ byte ∈ elem.fieldName, (byte != 0) = true := by
    intro byte member
    have differ : byte ≠ 0 := fun same => elem.nameTerminated (same ▸ member)
    simpa using differ
  simp [strlen, List.takeWhile_append_of_pos noNul]

/-- The name size is the stored name and its NUL, and one byte for EOO, whose name is empty
whatever bytes follow its type byte. -/
theorem fieldNameSize_eq (elem : ElementBytes) :
    elem.fieldNameSize = if elem.typeByte = 0 then 1 else Int32.ofNat (elem.fieldName.length + 1) := by
  rw [fieldNameSize, strlen_name]

end ElementBytes

open ElementBytes

/-- The `massert` of the variable-size types of `size(maxLen)`: with a bound, at least four
bytes must remain after the field name. -/
def enoughBytes (code : Nat) (maxLen remain : Int) : Except Status Unit :=
  if maxLen = -1 ∨ remain > 3 then .ok ()
  else .error ⟨.location code, "Insufficient bytes to calculate element size"⟩

/-- The `RegEx` case of `size(maxLen)`: the two C strings, read with `strnlen` under a bound. -/
def regexValueSize (elem : ElementBytes) (maxLen remain : Int) : Except Status Int32 :=
  let len1 := if maxLen = -1 then strlen elem.value else strnlen elem.value remain.toNat
  if ¬(maxLen = -1 ∨ len1 < remain) then .error ⟨.location 10318, "Invalid regex string"⟩
  else
    let options := elem.value.drop (len1 + 1)
    if maxLen = -1 then .ok (regexSize len1 (strlen options))
    else
      -- `x` is at most `remain`, an `int`, so the `verify(x <= 0x7fffffff)` between holds
      let x := remain.toNat - len1 - 1
      let len2 := strnlen options x
      if len2 < x then .ok (regexSize len1 len2)
      else .error ⟨.location 10319, "Invalid regex options string"⟩

/-- `BSONElement::size(int maxLen)` on its first call (`totalSize` not yet cached): the value
size by type, plus the field name and the type byte; a type outside the enumeration asserts. -/
def sizeMaxLen (maxLen : Int) (elem : ElementBytes) : Except Status Int32 :=
  let remain : Int := maxLen - elem.fieldNameSize.toInt - 1
  let valueSize : Except Status Int32 :=
    match BSONType.ofByte elem.typeByte with
    | some .eoo | some .undefined | some .jstNULL | some .maxKey | some .minKey => .ok 0
    | some .bool => .ok 1
    | some .numberInt => .ok 4
    | some .bsonTimestamp | some .date | some .numberDouble | some .numberLong => .ok 8
    | some .numberDecimal => .ok 16
    | some .jstOID => .ok 12
    | some .symbol | some .code | some .string =>
        (enoughBytes 10313 maxLen remain).map fun _ => elem.valuestrsize + 4
    | some .codeWScope => (enoughBytes 10314 maxLen remain).map fun _ => elem.objsize
    | some .dbRef => (enoughBytes 10315 maxLen remain).map fun _ => elem.valuestrsize + 4 + 12
    | some .object | some .array => (enoughBytes 10316 maxLen remain).map fun _ => elem.objsize
    | some .binData => (enoughBytes 10317 maxLen remain).map fun _ => elem.valuestrsize + 4 + 1
    | some .regEx => regexValueSize elem maxLen remain
    | none => .error ⟨.location 13655, "BSONElement: bad type " ++ toString elem.type⟩
  valueSize.map fun x => x + elem.fieldNameSize + 1

/-- `kFixedSizes`: the value size of the fixed-size types, 0 for the others. -/
def kFixedSizes : Vector UInt8 32 :=
  #v[0, 8, 0, 0, 0, 0, 0, 12, 1, 8, 0, 0, 0, 0, 0, 0, 4, 8, 8, 16,
    0, 0, 0, 0, 0, 0, 0, 0, 0, 0, 0, 0]

/-- `kFixedSizes[t]`: below the table, at a negative `t`, the read lands on the bytes `outside`
gives. -/
def fixedSizeAt (outside : Int → UInt8) (t : Int) : UInt8 :=
  if inTable : 0 ≤ t ∧ t < 32 then kFixedSizes.get ⟨t.toNat, by omega⟩ else outside t

/-- `kStringSizeMask`. -/
def kStringSizeMask : UInt32 :=
  (1 <<< BSONType.string.byte.toUInt32) ||| (1 <<< BSONType.code.byte.toUInt32) |||
    (1 <<< BSONType.symbol.byte.toUInt32)

/-- `kObjectSizeMask`. -/
def kObjectSizeMask : UInt32 :=
  (1 <<< BSONType.object.byte.toUInt32) ||| (1 <<< BSONType.array.byte.toUInt32) |||
    (1 <<< BSONType.codeWScope.byte.toUInt32)

/-- `BSONElement::size()` on its first call: a nonzero table entry is the value size; a type
whose `unsigned` cast is 32 or more (MinKey, MaxKey and every type byte from 0x20 on) has none;
the rest go by the masks and by type. -/
def size (outside : Int → UInt8) (elem : ElementBytes) : Int32 :=
  let t := elem.type
  let x : Int32 :=
    if t < 32 ∧ fixedSizeAt outside t ≠ 0 then (fixedSizeAt outside t).toUInt32.toInt32
    else if 32 ≤ t.toInt32.toUInt32 then 0
    else
      let typeBit : UInt32 := 1 <<< t.toNat.toUInt32
      if typeBit &&& kStringSizeMask ≠ 0 then elem.valuestrsize + 4
      else if typeBit &&& kObjectSizeMask ≠ 0 then elem.objsize
      else if t = BSONType.binData.byte.toNat then elem.valuestrsize + 4 + 1
      else if t = BSONType.dbRef.byte.toNat then elem.valuestrsize + 4 + 12
      else if t = BSONType.regEx.byte.toNat then
        let len1 := strlen elem.value
        regexSize len1 (strlen (elem.value.drop (len1 + 1)))
      else 0
  x + elem.fieldNameSize + 1

/-- How a value's size is found: a fixed size, the length prefix of a string, binary or DBRef,
the embedded size of a document, array or scope, the two C strings of a regular expression, or
no rule at all. Both size functions pick one from the type byte alone. -/
inductive SizeRule where
  | fixed (x : Int32)
  | string
  | binData
  | dbRef
  | embedded
  | regex
  | badType
  deriving DecidableEq, Repr

/-- The value size a rule reads from the element's bytes. -/
def SizeRule.valueSize (elem : ElementBytes) : SizeRule → Option Int32
  | .fixed x => some x
  | .string => some (elem.valuestrsize + 4)
  | .binData => some (elem.valuestrsize + 4 + 1)
  | .dbRef => some (elem.valuestrsize + 4 + 12)
  | .embedded => some elem.objsize
  | .regex => some (regexSize (strlen elem.value) (strlen (elem.value.drop (strlen elem.value + 1))))
  | .badType => none

/-- The rule of the switch of `size(maxLen)`. -/
def switchRule (typeByte : UInt8) : SizeRule :=
  match BSONType.ofByte typeByte with
  | some .eoo | some .undefined | some .jstNULL | some .maxKey | some .minKey => .fixed 0
  | some .bool => .fixed 1
  | some .numberInt => .fixed 4
  | some .bsonTimestamp | some .date | some .numberDouble | some .numberLong => .fixed 8
  | some .numberDecimal => .fixed 16
  | some .jstOID => .fixed 12
  | some .symbol | some .code | some .string => .string
  | some .codeWScope | some .object | some .array => .embedded
  | some .dbRef => .dbRef
  | some .binData => .binData
  | some .regEx => .regex
  | none => .badType

/-- The rule of the table, the masks and the type tests of `size()`. -/
def tableRule (outside : Int → UInt8) (t : Int) : SizeRule :=
  if t < 32 ∧ fixedSizeAt outside t ≠ 0 then .fixed (fixedSizeAt outside t).toUInt32.toInt32
  else if 32 ≤ t.toInt32.toUInt32 then .fixed 0
  else
    let typeBit : UInt32 := 1 <<< t.toNat.toUInt32
    if typeBit &&& kStringSizeMask ≠ 0 then .string
    else if typeBit &&& kObjectSizeMask ≠ 0 then .embedded
    else if t = BSONType.binData.byte.toNat then .binData
    else if t = BSONType.dbRef.byte.toNat then .dbRef
    else if t = BSONType.regEx.byte.toNat then .regex
    else .fixed 0

/-- Without a bound, `size(maxLen)` is its type's rule, or the bad-type assertion. -/
theorem sizeMaxLen_unbounded (elem : ElementBytes) :
    sizeMaxLen (-1) elem =
      match (switchRule elem.typeByte).valueSize elem with
      | some x => .ok (x + elem.fieldNameSize + 1)
      | none => .error ⟨.location 13655, "BSONElement: bad type " ++ toString elem.type⟩ := by
  unfold sizeMaxLen switchRule
  cases BSONType.ofByte elem.typeByte with
  | none => rfl
  | some type => cases type <;> rfl

/-- `size()` is the value size of its rule, which always has one. -/
theorem size_eq_rule (outside : Int → UInt8) (elem : ElementBytes) :
    some (size outside elem) =
      ((tableRule outside elem.type).valueSize elem).map fun x => x + elem.fieldNameSize + 1 := by
  unfold size tableRule
  dsimp only
  split_ifs <;> rfl

/-- At a non-negative type the table is read in bounds, and nothing outside it matters. -/
theorem tableRule_outside {t : Int} (nonnegative : 0 ≤ t) (outside : Int → UInt8) :
    tableRule outside t = tableRule (fun _ => 0) t := by
  have inBounds : ∀ outside, t < 32 → fixedSizeAt outside t = fixedSizeAt (fun _ => 0) t := by
    intro outside below
    simp [fixedSizeAt, nonnegative, below]
  unfold tableRule
  by_cases below : t < 32
  · rw [inBounds outside below]
  · simp [below]

/-- Below 0x80 the table and the switch pick the same rule for every type byte that names a
type; for the others the table finds a value size of zero. -/
theorem tableRule_nonnegative :
    ∀ n < 128, tableRule (fun _ => 0) (UInt8.ofNat n).toInt8.toInt =
      if switchRule (UInt8.ofNat n) = .badType then .fixed 0 else switchRule (UInt8.ofNat n) := by
  decide

/-- At a negative type the table is read before its start, on the byte `outside` gives, and a
zero byte there sends the type on to the types without a value. -/
theorem tableRule_negative (outside : Int → UInt8) {t : Int} (below : t < 0)
    (unsignedLarge : 32 ≤ t.toInt32.toUInt32) :
    tableRule outside t = .fixed (outside t).toUInt32.toInt32 := by
  have outsideRead : fixedSizeAt outside t = outside t := by
    unfold fixedSizeAt
    rw [dif_neg (fun inTable => absurd inTable.1 (Int.not_le.mpr below))]
  unfold tableRule
  rw [outsideRead]
  by_cases zero : outside t = 0
  · rw [if_neg (fun first => first.2 zero), if_pos unsignedLarge, zero]
    rfl
  · rw [if_pos ⟨Int.lt_trans below (by decide), zero⟩]

/-- The type bytes from 0x80 on read as negative types, whose `unsigned` cast is large. -/
theorem type_negative :
    ∀ n < 128, (UInt8.ofNat (n + 128)).toInt8.toInt < 0 ∧
      32 ≤ (UInt8.ofNat (n + 128)).toInt8.toInt.toInt32.toUInt32 := by
  decide

theorem typeByte_eq_ofNat (elem : ElementBytes) : elem.typeByte = UInt8.ofNat elem.typeByte.toNat := by
  simp

/-- The type bytes below 0x80 read as non-negative types. -/
theorem type_nonnegative : ∀ n < 128, 0 ≤ (UInt8.ofNat n).toInt8.toInt := by
  decide

/-- The rule of `size()` for a type byte below 0x80. -/
theorem tableRule_low (outside : Int → UInt8) {elem : ElementBytes} (low : elem.typeByte < 0x80) :
    tableRule outside elem.type =
      if switchRule elem.typeByte = .badType then .fixed 0 else switchRule elem.typeByte := by
  have small : elem.typeByte.toNat < 128 := low
  have atByte := tableRule_nonnegative elem.typeByte.toNat small
  have signed := type_nonnegative elem.typeByte.toNat small
  rw [← typeByte_eq_ofNat] at atByte signed
  rw [ElementBytes.type, tableRule_outside signed outside]
  exact atByte

/-- The rule of `size()` for a type byte from 0x80 on. -/
theorem tableRule_high (outside : Int → UInt8) {elem : ElementBytes} (high : ¬ elem.typeByte < 0x80) :
    tableRule outside elem.type = .fixed (outside elem.type).toUInt32.toInt32 := by
  have large : 128 ≤ elem.typeByte.toNat := by
    simpa [UInt8.lt_iff_toNat_lt] using high
  have signed := type_negative (elem.typeByte.toNat - 128) (by have := elem.typeByte.toNat_lt; omega)
  rw [Nat.sub_add_cancel large, ← typeByte_eq_ofNat] at signed
  exact tableRule_negative outside signed.1 signed.2

/-- The zero byte is the one whose value size is zero. -/
theorem toInt32_eq_zero (byte : UInt8) : byte.toUInt32.toInt32 = 0 ↔ byte = 0 := by
  constructor
  · intro zeroSize
    have back := congrArg (fun x : Int32 => x.toUInt32.toUInt8) zeroSize
    have zero : (0 : Int32).toUInt32.toUInt8 = 0 := rfl
    simpa [zero] using back
  · rintro rfl
    rfl

theorem size_diverges_from_sizeMaxLen (outside : Int → UInt8) (elem : ElementBytes) :
    (elem.typeByte < 0x80 → ∀ total, sizeMaxLen (-1) elem = .ok total → size outside elem = total) ∧
    (BSONType.ofByte elem.typeByte = none →
      sizeMaxLen (-1) elem = .error ⟨.location 13655, "BSONElement: bad type " ++ toString elem.type⟩ ∧
      size outside elem =
        (if elem.typeByte < 0x80 then 0 else (outside elem.type).toUInt32.toInt32) +
          elem.fieldNameSize + 1) ∧
    (elem.typeByte = 0xFF → (sizeMaxLen (-1) elem = .ok (size outside elem) ↔ outside (-1) = 0)) := by
  have switchSize := sizeMaxLen_unbounded elem
  have tableSize := size_eq_rule outside elem
  refine ⟨?agree, ?bad, ?minKey⟩
  case agree =>
    intro low total returned
    rw [tableRule_low outside low] at tableSize
    cases rule : switchRule elem.typeByte <;>
      simp_all [SizeRule.valueSize]
  case bad =>
    intro unnamed
    have badRule : switchRule elem.typeByte = .badType := by simp [switchRule, unnamed]
    refine ⟨by simpa [badRule, SizeRule.valueSize] using switchSize, ?_⟩
    by_cases low : elem.typeByte < 0x80
    · rw [tableRule_low outside low, badRule] at tableSize
      simpa [low, SizeRule.valueSize] using tableSize
    · rw [tableRule_high outside low] at tableSize
      simpa [low, SizeRule.valueSize] using tableSize
  case minKey =>
    -- MinKey names a type without a value, and reads as -1: the byte just before the table
    intro isMinKey
    have minKeyRule : switchRule elem.typeByte = .fixed 0 := by rw [isMinKey]; rfl
    have minKeyType : elem.type = -1 := by simp [ElementBytes.type, isMinKey]
    rw [tableRule_high outside (by simp [isMinKey]), minKeyType] at tableSize
    simp only [SizeRule.valueSize, Option.map_some, Option.some.injEq] at tableSize
    rw [switchSize, minKeyRule, tableSize]
    simp [SizeRule.valueSize, Int32.add_left_inj, toInt32_eq_zero]

/-- `{"a": "x"}`'s element. -/
def stringElement : ElementBytes := ⟨0x02, [0x61], [2, 0, 0, 0, 0x78, 0], by decide⟩

/-- An element of the unassigned type 0x14 named `a`. -/
def badTypeElement : ElementBytes := ⟨0x14, [0x61], [], by decide⟩

/-- A MinKey element named `a`. -/
def minKeyElement : ElementBytes := ⟨0xFF, [0x61], [], by decide⟩

theorem size_diverges_from_sizeMaxLen_examples :
    size (fun _ => 1) stringElement = 9 ∧
      (sizeMaxLen (-1) badTypeElement = .error ⟨.location 13655, "BSONElement: bad type " ++ toString badTypeElement.type⟩ ∧
        size (fun _ => 1) badTypeElement =
          (if badTypeElement.typeByte < 0x80 then 0 else ((fun _ => (1 : UInt8)) badTypeElement.type).toUInt32.toInt32) +
            badTypeElement.fieldNameSize + 1) ∧
      (sizeMaxLen (-1) minKeyElement = .ok (size (fun _ => 1) minKeyElement) ↔ (1 : UInt8) = 0) :=
  ⟨(size_diverges_from_sizeMaxLen (fun _ => 1) stringElement).1 (by decide) 9 rfl,
    (size_diverges_from_sizeMaxLen (fun _ => 1) badTypeElement).2.1 rfl,
    (size_diverges_from_sizeMaxLen (fun _ => 1) minKeyElement).2.2 rfl⟩

example : size (fun _ => 1) badTypeElement = 3 ∧ size (fun _ => 1) minKeyElement = 4 ∧
    sizeMaxLen (-1) minKeyElement = .ok 3 := by decide

end FastMongo.Bson

import Mathlib.Data.List.Basic

/-!
BSON values as `bsonelement.h` and `bsonobj.h` read them. A document is the list of its
elements in storage order, so repeated field names are kept; an array is stored as a
document whose field names are whatever the bytes hold (normally "0", "1", ...). The element
kinds without nested documents are grouped in `Scalar`; a code-with-scope value keeps its
scope document as its encoded bytes, since no modelled function looks inside it.
-/

namespace FastMongo.Bson

/-- The element type tags of `bsontypes.h`. -/
inductive BSONType where
  | minKey | eoo | numberDouble | string | object | array | binData | undefined | jstOID
  | bool | date | jstNULL | regEx | dbRef | code | symbol | codeWScope | numberInt
  | bsonTimestamp | numberLong | numberDecimal | maxKey
  deriving DecidableEq, Repr

/-- The type byte that precedes every element. -/
def BSONType.byte : BSONType → UInt8
  | .minKey => 0xFF
  | .eoo => 0x00
  | .numberDouble => 0x01
  | .string => 0x02
  | .object => 0x03
  | .array => 0x04
  | .binData => 0x05
  | .undefined => 0x06
  | .jstOID => 0x07
  | .bool => 0x08
  | .date => 0x09
  | .jstNULL => 0x0A
  | .regEx => 0x0B
  | .dbRef => 0x0C
  | .code => 0x0D
  | .symbol => 0x0E
  | .codeWScope => 0x0F
  | .numberInt => 0x10
  | .bsonTimestamp => 0x11
  | .numberLong => 0x12
  | .numberDecimal => 0x13
  | .maxKey => 0x7F

/-- The element values that hold no nested document. A double is kept as its IEEE bits. -/
inductive Scalar where
  | numberDouble (bits : UInt64)
  | string (value : String)
  | binData (subtype : UInt8) (bytes : List UInt8)
  | undefined
  | jstOID (bytes : Vector UInt8 12)
  | bool (value : Bool)
  | date (millis : Int64)
  | jstNULL
  | regEx (pattern flags : String)
  | dbRef (ns : String) (oid : Vector UInt8 12)
  | code (value : String)
  | symbol (value : String)
  | codeWScope (code : String) (scope : List UInt8)
  | numberInt (value : Int32)
  | bsonTimestamp (value : UInt64)
  | numberLong (value : Int64)
  | numberDecimal (bytes : Vector UInt8 16)
  | minKey
  | maxKey
  deriving DecidableEq, Repr

/-- A BSON value; documents and arrays are lists of named elements. -/
inductive Value where
  | scalar (value : Scalar)
  | object (fields : List (String × Value))
  | array (items : List (String × Value))
  deriving Repr

/-- A document: its elements in storage order. -/
abbrev BSONObj := List (String × Value)

/-- One element: its field name and its value. -/
abbrev BSONElement := String × Value

mutual
/-- Structural equality of values, decided element by element. -/
def Value.decEq : (left right : Value) → Decidable (left = right)
  | .scalar x, .scalar y =>
      if same : x = y then isTrue (same ▸ rfl) else isFalse fun eq => same (Value.scalar.inj eq)
  | .object xs, .object ys =>
      match Value.decEqFields xs ys with
      | isTrue same => isTrue (same ▸ rfl)
      | isFalse differ => isFalse fun eq => differ (Value.object.inj eq)
  | .array xs, .array ys =>
      match Value.decEqFields xs ys with
      | isTrue same => isTrue (same ▸ rfl)
      | isFalse differ => isFalse fun eq => differ (Value.array.inj eq)
  | .scalar _, .object _ | .scalar _, .array _ | .object _, .scalar _ | .object _, .array _
  | .array _, .scalar _ | .array _, .object _ => isFalse (by intro eq; cases eq)

/-- Structural equality of element lists. -/
def Value.decEqFields : (left right : List (String × Value)) → Decidable (left = right)
  | [], [] => isTrue rfl
  | [], _ :: _ | _ :: _, [] => isFalse (by intro eq; cases eq)
  | (name, value) :: rest, (name', value') :: rest' =>
      if sameName : name = name' then
        match Value.decEq value value', Value.decEqFields rest rest' with
        | isTrue sameValue, isTrue sameRest => isTrue (by rw [sameName, sameValue, sameRest])
        | isFalse differ, _ => isFalse fun eq => differ (Prod.mk.inj (List.cons.inj eq).1).2
        | _, isFalse differ => isFalse fun eq => differ (List.cons.inj eq).2
      else isFalse fun eq => sameName (Prod.mk.inj (List.cons.inj eq).1).1
end

instance : DecidableEq Value := Value.decEq

/-- The type tag of a scalar. -/
def Scalar.type : Scalar → BSONType
  | .numberDouble _ => .numberDouble
  | .string _ => .string
  | .binData _ _ => .binData
  | .undefined => .undefined
  | .jstOID _ => .jstOID
  | .bool _ => .bool
  | .date _ => .date
  | .jstNULL => .jstNULL
  | .regEx _ _ => .regEx
  | .dbRef _ _ => .dbRef
  | .code _ => .code
  | .symbol _ => .symbol
  | .codeWScope _ _ => .codeWScope
  | .numberInt _ => .numberInt
  | .bsonTimestamp _ => .bsonTimestamp
  | .numberLong _ => .numberLong
  | .numberDecimal _ => .numberDecimal
  | .minKey => .minKey
  | .maxKey => .maxKey

/-- `BSONElement::type` of a value. -/
def Value.type : Value → BSONType
  | .scalar value => value.type
  | .object _ => .object
  | .array _ => .array

/-- The null value that `BSON("" << BSONNULL)` holds. -/
def Value.null : Value := .scalar .jstNULL

/-- The undefined value that `BSON("" << BSONUndefined)` holds. -/
def Value.undefined : Value := .scalar .undefined

theorem Scalar.type_ne_object (value : Scalar) : value.type ≠ .object := by
  cases value <;> simp [Scalar.type]

theorem Scalar.type_ne_array (value : Scalar) : value.type ≠ .array := by
  cases value <;> simp [Scalar.type]

@[simp] theorem Value.type_scalar (value : Scalar) : (Value.scalar value).type = value.type := rfl
@[simp] theorem Value.type_object (fields : BSONObj) : (Value.object fields).type = .object := rfl
@[simp] theorem Value.type_array (items : BSONObj) : (Value.array items).type = .array := rfl

theorem Value.type_eq_array {value : Value} : value.type = .array ↔ ∃ items, value = .array items := by
  cases value with
  | scalar value => simp [Scalar.type_ne_array]
  | object fields => simp
  | array items => simp

theorem Value.type_eq_object {value : Value} :
    value.type = .object ↔ ∃ fields, value = .object fields := by
  cases value with
  | scalar value => simp [Scalar.type_ne_object]
  | object fields => simp
  | array items => simp

namespace BSONObj

/-- `BSONObj::getField`: the first element with the given name, or EOO. -/
def getField (obj : BSONObj) (name : String) : Option BSONElement :=
  obj.find? fun element => element.1 == name

/-- `BSONObj::hasField`. -/
def hasField (obj : BSONObj) (name : String) : Bool :=
  (obj.getField name).isSome

/-- `BSONObj::getObjectField`: the embedded document of the first element with the given
name when it is an object or an array, else the empty document. -/
def getObjectField (obj : BSONObj) (name : String) : BSONObj :=
  match obj.getField name with
  | some (_, .object fields) => fields
  | some (_, .array items) => items
  | _ => []

@[simp] theorem getField_nil (name : String) : getField [] name = none := rfl

theorem getField_cons (element : BSONElement) (rest : BSONObj) (name : String) :
    getField (element :: rest) name =
      if element.1 = name then some element else getField rest name := by
  by_cases same : element.1 = name <;> simp [getField, same]

theorem getField_name {obj : BSONObj} {name : String} {element : BSONElement}
    (found : obj.getField name = some element) : element.1 = name := by
  simpa using List.find?_some found

theorem getField_mem {obj : BSONObj} {name : String} {element : BSONElement}
    (found : obj.getField name = some element) : element ∈ obj :=
  List.mem_of_find?_eq_some found

theorem getField_eq_none {obj : BSONObj} {name : String} :
    obj.getField name = none ↔ ∀ element ∈ obj, element.1 ≠ name := by
  simp [getField, List.find?_eq_none]

theorem hasField_iff {obj : BSONObj} {name : String} :
    obj.hasField name = true ↔ ∃ element ∈ obj, element.1 = name := by
  rw [hasField, Option.isSome_iff_ne_none, Ne, getField_eq_none]
  simp

theorem hasField_append (front back : BSONObj) (name : String) :
    (front ++ back).hasField name = (front.hasField name || back.hasField name) := by
  apply Bool.eq_iff_iff.mpr
  simp only [hasField_iff, List.mem_append, Bool.or_eq_true]
  constructor
  · rintro ⟨element, inside | inside, named⟩
    · exact .inl ⟨element, inside, named⟩
    · exact .inr ⟨element, inside, named⟩
  · rintro (⟨element, inside, named⟩ | ⟨element, inside, named⟩)
    · exact ⟨element, .inl inside, named⟩
    · exact ⟨element, .inr inside, named⟩

end BSONObj

end FastMongo.Bson

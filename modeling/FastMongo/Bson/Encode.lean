import FastMongo.Bson.Value
import FastMongo.Lib.LittleEndian

/-!
The binary form of a BSON document (`bsonobj.h`, `bsonelement.h`): a little-endian int32 total
size, the elements, and a terminating zero byte. An element is its type byte, its field name as
a C string and its value bytes; embedded documents and arrays carry the same frame.
-/

namespace FastMongo.Bson

open LittleEndian

/-- The UTF-8 bytes of a string. -/
def utf8 (text : String) : List UInt8 :=
  text.toList.flatMap String.utf8EncodeChar

/-- A C string: the UTF-8 bytes and a zero byte. -/
def cstring (text : String) : List UInt8 :=
  utf8 text ++ [0]

/-- A BSON string: an int32 byte count that includes the terminator, then the C string. -/
def stringBytes (text : String) : List UInt8 :=
  toBytes 4 ((utf8 text).length + 1) ++ cstring text

/-- The int32 size, the body and the terminating zero of a document. -/
def frame (body : List UInt8) : List UInt8 :=
  toBytes 4 (body.length + 5) ++ body ++ [0]

/-- The value bytes of an element that holds no nested document. -/
def Scalar.bytes : Scalar → List UInt8
  | .numberDouble bits => toBytes 8 bits.toNat
  | .string value => stringBytes value
  | .binData subtype bytes => toBytes 4 bytes.length ++ subtype :: bytes
  | .undefined => []
  | .jstOID bytes => bytes.toList
  | .bool value => [if value then 1 else 0]
  | .date millis => toBytes 8 millis.toBitVec.toNat
  | .jstNULL => []
  | .regEx pattern flags => cstring pattern ++ cstring flags
  | .dbRef ns oid => stringBytes ns ++ oid.toList
  | .code value => stringBytes value
  | .symbol value => stringBytes value
  | .codeWScope source scope =>
      toBytes 4 ((stringBytes source).length + scope.length + 4) ++ stringBytes source ++ scope
  | .numberInt value => toBytes 4 value.toBitVec.toNat
  | .bsonTimestamp value => toBytes 8 value.toNat
  | .numberLong value => toBytes 8 value.toBitVec.toNat
  | .numberDecimal bytes => bytes.toList
  | .minKey => []
  | .maxKey => []

mutual
/-- The value bytes of an element. -/
def Value.bytes : Value → List UInt8
  | .scalar value => value.bytes
  | .object fields => frame (elementsBytes fields)
  | .array items => frame (elementsBytes items)

/-- The elements of a document, one after the other. -/
def elementsBytes : List (String × Value) → List UInt8
  | [] => []
  | (name, value) :: rest => value.type.byte :: cstring name ++ value.bytes ++ elementsBytes rest
end

/-- `BSONElement::rawdata()` for `size()` bytes: type byte, field name and value. -/
def elementBytes (element : BSONElement) : List UInt8 :=
  element.2.type.byte :: cstring element.1 ++ element.2.bytes

/-- The bytes from `BSONObj::objdata()` for `objsize()`. -/
def BSONObj.objdata (obj : BSONObj) : List UInt8 :=
  frame (elementsBytes obj)

/-- `BSONObj::objsize()`. -/
def BSONObj.objsize (obj : BSONObj) : Nat :=
  obj.objdata.length

@[simp] theorem Value.bytes_scalar (value : Scalar) : (Value.scalar value).bytes = value.bytes := by
  simp [Value.bytes]

@[simp] theorem Value.bytes_object (fields : BSONObj) :
    (Value.object fields).bytes = frame (elementsBytes fields) := by
  simp [Value.bytes]

@[simp] theorem Value.bytes_array (items : BSONObj) :
    (Value.array items).bytes = frame (elementsBytes items) := by
  simp [Value.bytes]

@[simp] theorem elementsBytes_nil : elementsBytes [] = [] := by
  simp [elementsBytes]

@[simp] theorem elementsBytes_cons (element : BSONElement) (rest : BSONObj) :
    elementsBytes (element :: rest) = elementBytes element ++ elementsBytes rest := by
  simp [elementsBytes, elementBytes]

theorem elementsBytes_append (front back : BSONObj) :
    elementsBytes (front ++ back) = elementsBytes front ++ elementsBytes back := by
  induction front with
  | nil => simp
  | cons element rest ih => simp [ih]

@[simp] theorem length_frame (body : List UInt8) : (frame body).length = body.length + 5 := by
  simp [frame]

theorem objsize_eq (obj : BSONObj) : obj.objsize = (elementsBytes obj).length + 5 := by
  simp [BSONObj.objsize, BSONObj.objdata]

end FastMongo.Bson

import FastMongo.Driver.Codec
import FastMongo.Integrity.DocumentHash

/-!
`VerifiedDocument` and `VerifiedUpdate` (`org/bson/VerifiedDocument.java`,
`org/bson/VerifiedUpdate.java`): what `lock()` hashes, and the document the driver then sends.
A `VerifiedDocument` hashes the element bytes of its non-collectible encoding; `insertOne`,
`insertMany` and `bulkWrite` add a generated `_id` when there is none and send the collectible
encoding, hash first and `_id` second. A `VerifiedUpdate` hashes the whole encoding of its update
document, header and terminator included, and sends the hash first followed by the operators.
-/

namespace FastMongo.Driver

open FastMongo.Bson FastMongo.Integrity XXHash

/-- A `VerifiedDocument`: a `LinkedHashMap` of entries in insertion order, so its keys are
distinct, and the hash that `lock()` stored. -/
structure VerifiedDocument where
  entries : List (String × JavaValue)
  keysDistinct : (entries.map Prod.fst).Nodup
  integrityHash : Option Int64

/-- `VerifiedDocument.lock()`: the lz4-java hash (the same function as XXH64) of the element
bytes of the non-collectible encoding, read as a Java `long`; a second call throws. -/
def VerifiedDocument.lock (doc : VerifiedDocument) : Except String VerifiedDocument :=
  match doc.integrityHash with
  | some _ => .error "lock() already called. Hash can only be computed once. If you need to recompute, create a new VerifiedDocument."
  | none =>
      .ok { doc with integrityHash := some (xxh64 (elementsBytes (writeMap false none doc.entries)) 0).toInt64 }

theorem nodup_append_absent {entries : List (String × JavaValue)} {key : String}
    {value : JavaValue} (distinct : (entries.map Prod.fst).Nodup)
    (absent : containsKey entries key = false) :
    ((entries ++ [(key, value)]).map Prod.fst).Nodup := by
  rw [List.map_append, List.nodup_append]
  refine ⟨distinct, by simp, ?_⟩
  intro name member other single same
  simp only [List.map_cons, List.map_nil, List.mem_singleton] at single
  subst single same
  obtain ⟨entry, inside, named⟩ := List.mem_map.mp member
  have present : containsKey entries name = true :=
    List.any_eq_true.mpr ⟨entry, inside, by simp [named]⟩
  rw [absent] at present
  cases present

/-- `DocumentCodec.generateIdIfAbsentFromDocument`: `document.put("_id", generated)` appends
the generated id when the document has none. -/
def VerifiedDocument.generateIdIfAbsent (doc : VerifiedDocument) (generated : Value) :
    VerifiedDocument :=
  if absent : containsKey doc.entries ID_FIELD_NAME = false then
    { doc with
      entries := doc.entries ++ [(ID_FIELD_NAME, .encoded generated)]
      keysDistinct := nodup_append_absent doc.keysDistinct absent }
  else doc

/-- The document that `insertOne`, `insertMany` and `bulkWrite` send: the collectible encoding
of the document after `generateIdIfAbsentFromDocument`. -/
def VerifiedDocument.sentDocument (doc : VerifiedDocument) (generated : Value) : BSONObj :=
  let withId := doc.generateIdIfAbsent generated
  writeMap true withId.integrityHash withId.entries

/-- A `VerifiedUpdate`: the update document, whose values are the modifier documents
`getOrCreateModifier` keeps, and the lock state. -/
structure VerifiedUpdate where
  updateSpec : List (String × List (String × JavaValue))
  locked : Bool
  integrityHash : Option Int64

/-- An update with no modifier yet. -/
def VerifiedUpdate.empty : VerifiedUpdate := ⟨[], false, none⟩

/-- The body shared by the modifier methods: `checkNotLocked()`, then
`getOrCreateModifier(op).put(field, value)`. -/
def VerifiedUpdate.modify (update : VerifiedUpdate) (op field : String) (value : JavaValue) :
    Except String VerifiedUpdate :=
  if update.locked then .error "Update is locked and cannot be modified"
  else
    let modifier := (update.updateSpec.lookup op).getD []
    .ok { update with updateSpec := put update.updateSpec op (put modifier field value) }

/-- `set`. -/
def VerifiedUpdate.set (update : VerifiedUpdate) (field : String) (value : JavaValue) :=
  update.modify "$set" field value
/-- `inc`. -/
def VerifiedUpdate.inc (update : VerifiedUpdate) (field : String) (value : Value) :=
  update.modify "$inc" field (.encoded value)
/-- `unset`. -/
def VerifiedUpdate.unset (update : VerifiedUpdate) (field : String) :=
  update.modify "$unset" field (.encoded (.scalar (.string "")))
/-- `push`. -/
def VerifiedUpdate.push (update : VerifiedUpdate) (field : String) (value : JavaValue) :=
  update.modify "$push" field value
/-- `pushAll`. -/
def VerifiedUpdate.pushAll (update : VerifiedUpdate) (field : String) (values : List JavaValue) :=
  update.modify "$push" field (.map [("$each", .iterable values)])
/-- `pull`. -/
def VerifiedUpdate.pull (update : VerifiedUpdate) (field : String) (value : JavaValue) :=
  update.modify "$pull" field value
/-- `addToSet`. -/
def VerifiedUpdate.addToSet (update : VerifiedUpdate) (field : String) (value : JavaValue) :=
  update.modify "$addToSet" field value
/-- `pop`. -/
def VerifiedUpdate.pop (update : VerifiedUpdate) (field : String) (first : Bool) :=
  update.modify "$pop" field (.encoded (.scalar (.numberInt (if first then -1 else 1))))
/-- `rename`. -/
def VerifiedUpdate.rename (update : VerifiedUpdate) (oldName newName : String) :=
  update.modify "$rename" oldName (.encoded (.scalar (.string newName)))
/-- `min`. -/
def VerifiedUpdate.min (update : VerifiedUpdate) (field : String) (value : JavaValue) :=
  update.modify "$min" field value
/-- `max`. -/
def VerifiedUpdate.max (update : VerifiedUpdate) (field : String) (value : JavaValue) :=
  update.modify "$max" field value
/-- `mul`. -/
def VerifiedUpdate.mul (update : VerifiedUpdate) (field : String) (value : Value) :=
  update.modify "$mul" field (.encoded value)
/-- `currentDate`. -/
def VerifiedUpdate.currentDate (update : VerifiedUpdate) (field : String) :=
  update.modify "$currentDate" field (.encoded (.scalar (.bool true)))
/-- `currentTimestamp`. -/
def VerifiedUpdate.currentTimestamp (update : VerifiedUpdate) (field : String) :=
  update.modify "$currentDate" field (.map [("$type", .encoded (.scalar (.string "timestamp")))])

/-- The update document as a Java map of modifier documents. -/
def VerifiedUpdate.specMap (update : VerifiedUpdate) : List (String × JavaValue) :=
  update.updateSpec.map fun modifier => (modifier.1, .map modifier.2)

/-- `VerifiedUpdate.lock()`: the hash of the whole non-collectible encoding of the update
document; a second call does nothing. -/
def VerifiedUpdate.lock (update : VerifiedUpdate) : VerifiedUpdate :=
  if update.locked then update
  else
    { update with
      integrityHash := some (xxh64 (BSONObj.objdata (writeMap false none update.specMap)) 0).toInt64
      locked := true }

/-- `VerifiedUpdate.toBsonValue` for the values a modifier holds: `null`, lists element by
element, `Document`s through `toBsonDocument` and therefore `DocumentCodec`, and the other
values as their codecs write them; this is `DocumentCodec.writeValue` case for case. -/
def toBsonValue (value : JavaValue) : Value :=
  writeValue value

/-- `VerifiedUpdate.toBsonDocument`: the hash first when locked, then each modifier with its
fields converted by `toBsonValue`; nothing is skipped. -/
def VerifiedUpdate.toBsonDocument (update : VerifiedUpdate) : BSONObj :=
  let hashField := if update.locked then
      match update.integrityHash with
      | some hash => [(DOC_HASH_FIELD_NAME, .scalar (.numberLong hash))]
      | none => []
    else []
  hashField ++ update.updateSpec.map fun modifier =>
    (modifier.1, .object (modifier.2.map fun field => (field.1, toBsonValue field.2)))

end FastMongo.Driver

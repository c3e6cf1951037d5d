import FastMongo.Driver.Verified
import FastMongo.Integrity.Properties

/-!
What the server's `verifyDocumentIntegrity` makes of what the Java driver sends. A locked
`VerifiedDocument` whose first key is `_id` is accepted. A document without `_id` gets one
appended by `generateIdIfAbsentFromDocument` after `lock()`, and the collectible encoding writes
it right after the hash, so the server hashes an element the client never hashed. A locked
`VerifiedUpdate` hashed its whole encoding, while the server, finding the hash first, hashes
only the element bytes after it.
-/

namespace FastMongo.Driver

open FastMongo.Bson FastMongo.Integrity XXHash

@[simp] theorem docHashFieldName_eq : DOC_HASH_FIELD_NAME = kDocHashFieldName := rfl

@[simp] theorem writeMap_plain (entries : List (String × JavaValue)) :
    writeMap false none entries = writeEntries entries := by
  simp [writeMap]

/-- The entry loop is the conversion of every entry followed by the removal of the
`_$docHash` elements. -/
theorem writeEntries_eq_withoutHashField (entries : List (String × JavaValue)) :
    writeEntries entries = withoutHashField (entries.map fun entry => (entry.1, writeValue entry.2)) := by
  induction entries with
  | nil => simp [withoutHashField]
  | cons entry rest ih =>
      obtain ⟨key, value⟩ := entry
      by_cases named : key = kDocHashFieldName
      · simp [writeEntries_cons, named, ih, withoutHashField]
      · simp [writeEntries_cons, named, ih, withoutHashField]

/-- What a `_$docHash`-named modifier or field contributes to the server's bytes and not to the
client's: nothing, or at least eleven bytes. -/
theorem length_update_elements (spec : List (String × List (String × JavaValue))) :
    (elementsBytes (spec.map fun modifier =>
        (modifier.1, Value.object (modifier.2.map fun field => (field.1, toBsonValue field.2))))).length =
      (elementsBytes (writeEntries (VerifiedUpdate.specMap ⟨spec, false, none⟩))).length ∨
    (elementsBytes (writeEntries (VerifiedUpdate.specMap ⟨spec, false, none⟩))).length + 11 ≤
      (elementsBytes (spec.map fun modifier =>
        (modifier.1, Value.object (modifier.2.map fun field => (field.1, toBsonValue field.2))))).length := by
  induction spec with
  | nil => simp [VerifiedUpdate.specMap]
  | cons modifier rest ih =>
      obtain ⟨op, fields⟩ := modifier
      simp only [VerifiedUpdate.specMap] at ih
      simp only [VerifiedUpdate.specMap, List.map_cons]
      have inner := length_elementsBytes_withoutHashField
        (fields.map fun field => (field.1, writeValue field.2))
      rw [← writeEntries_eq_withoutHashField] at inner
      by_cases named : op = DOC_HASH_FIELD_NAME
      · have long := length_elementBytes_hash
          (Value.object (fields.map fun field => (field.1, toBsonValue field.2)))
        have opName : op = kDocHashFieldName := named
        subst opName
        rw [writeEntries_cons, if_pos named, elementsBytes_cons, List.length_append]
        omega
      · rw [writeEntries_cons, if_neg named, elementsBytes_cons, elementsBytes_cons,
          List.length_append, List.length_append]
        simp only [elementBytes, List.length_cons, List.length_append, writeValue,
          Value.bytes_object, length_frame, toBsonValue]
        simp only [toBsonValue] at ih
        omega

/-- The bytes the server hashes for a locked update: the element bytes after the hash. -/
theorem hashedBytes_locked_update (spec : List (String × List (String × JavaValue))) :
    hashedBytes (VerifiedUpdate.lock ⟨spec, false, none⟩).toBsonDocument =
      elementsBytes (spec.map fun modifier =>
        (modifier.1, Value.object (modifier.2.map fun field => (field.1, toBsonValue field.2)))) := by
  simp only [VerifiedUpdate.lock, VerifiedUpdate.toBsonDocument, Bool.false_eq_true, if_false,
    if_true, List.singleton_append]
  exact hashedBytes_hashFirst _ _

/-- A locked document without `_id`, once `insertOne` has appended the generated one: the
server hashes the `_id` element and then what the client hashed. -/
theorem hashedBytes_sent_without_id {entries : List (String × JavaValue)}
    (distinct : (entries.map Prod.fst).Nodup) (noId : containsKey entries ID_FIELD_NAME = false)
    (generated : Value) :
    hashedBytes (VerifiedDocument.sentDocument
        ⟨entries, distinct, some (xxh64 (elementsBytes (writeMap false none entries)) 0).toInt64⟩
        generated) =
      elementBytes (ID_FIELD_NAME, generated) ++ elementsBytes (writeMap false none entries) := by
  have noIdEntry : ∀ entry ∈ entries, entry.1 ≠ ID_FIELD_NAME := by
    intro entry member named
    have present : containsKey entries ID_FIELD_NAME = true :=
      List.any_eq_true.mpr ⟨entry, member, by simp [named]⟩
    rw [noId] at present
    cases present
  have kept : (entries.filter fun entry => !(entry.1 == ID_FIELD_NAME)) = entries := by
    rw [List.filter_eq_self]
    intro entry member
    simpa only [Bool.not_eq_true', beq_eq_false_iff_ne] using noIdEntry entry member
  have missing : entries.lookup ID_FIELD_NAME = none :=
    List.lookup_eq_none_iff.mpr fun entry member => by
      rw [bne_iff_ne]
      exact fun same => noIdEntry entry member same.symm
  have found : (entries ++ [(ID_FIELD_NAME, JavaValue.encoded generated)]).lookup ID_FIELD_NAME =
      some (.encoded generated) := by
    rw [List.lookup_append, missing]
    rfl
  rw [writeMap_plain]
  have sent : VerifiedDocument.sentDocument
      ⟨entries, distinct, some (xxh64 (elementsBytes (writeEntries entries)) 0).toInt64⟩ generated =
      (kDocHashFieldName, .scalar (.numberLong (xxh64 (elementsBytes (writeEntries entries)) 0).toInt64)) ::
        (ID_FIELD_NAME, generated) :: writeEntries entries := by
    simp [VerifiedDocument.sentDocument, VerifiedDocument.generateIdIfAbsent, noId, writeMap, found,
      kept, writeValue]
  rw [sent, hashedBytes_hashFirst, elementsBytes_cons]

theorem lock_unlocked (entries : List (String × JavaValue)) (distinct : (entries.map Prod.fst).Nodup) :
    (⟨entries, distinct, none⟩ : VerifiedDocument).lock =
      .ok ⟨entries, distinct, some (xxh64 (elementsBytes (writeMap false none entries)) 0).toInt64⟩ :=
  rfl

/-- The update `set("a", 1)`. -/
def setA : VerifiedUpdate :=
  ⟨[("$set", [("a", .encoded (.scalar (.numberInt 1)))])], false, none⟩

/-- The document `{a: 1}`, not yet locked. -/
def documentA : VerifiedDocument :=
  ⟨[("a", .encoded (.scalar (.numberInt 1)))], by decide, none⟩

/-- An `_id` that `generateIdIfAbsentFromDocument` may produce. -/
def generatedId : Value :=
  .scalar (.jstOID (Vector.replicate 12 0))

/-- A map that is not a locked `IntegrityVerifiedDocument` is written without a top-level
`_$docHash` in either context: the entry loop drops every entry of that name. -/
theorem hasField_writeMap_unlocked (collectible : Bool) (entries : List (String × JavaValue)) :
    (writeMap collectible none entries).hasField DOC_HASH_FIELD_NAME = false := by
  have idNotHash : ID_FIELD_NAME ≠ kDocHashFieldName := by decide
  unfold writeMap
  simp only [List.nil_append, BSONObj.hasField_append, hasField_writeEntries, Bool.or_false]
  split
  · split <;> simp [BSONObj.hasField, BSONObj.getField, idNotHash]
  · rfl

/-- The plain `Document` that `testInsertWithInvalidHash` inserts. -/
def invalidHashDocument : List (String × JavaValue) :=
  [(DOC_HASH_FIELD_NAME, .encoded (.scalar (.numberLong 12345678901234))),
   ("name", .encoded (.scalar (.string "invalid_hash"))),
   ("value", .encoded (.scalar (.numberInt 789)))]

example : decode (writeMap false none invalidHashDocument) =
    [("name", .encoded (.scalar (.string "invalid_hash"))),
     ("value", .encoded (.scalar (.numberInt 789)))] := rfl

end FastMongo.Driver

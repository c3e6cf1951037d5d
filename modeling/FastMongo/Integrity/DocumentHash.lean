import FastMongo.Base.Status
import FastMongo.Bson.Encode
import FastMongo.Hash.XXH64

/-!
The document integrity hash of `db/catalog/document_integrity.cpp`. A client may put a
`_$docHash: NumberLong` element in a document; the server recomputes the hash without it and
strips it before storage. `computeDocumentHash` has three paths: a document without the field is
hashed whole; when the field comes first, only the element bytes after it are hashed (no size
header, no terminator); otherwise a copy without the field is rebuilt and hashed whole.
-/

namespace FastMongo.Integrity

open FastMongo.Bson XXHash

/-- `kDocHashFieldName`. -/
def kDocHashFieldName : String := "_$docHash"

/-- The rebuild loop shared by `computeDocumentHash` and `stripHashField`: every element whose
name is not `_$docHash`, in order. -/
def withoutHashField (doc : BSONObj) : BSONObj :=
  doc.filter fun elem => elem.1 != kDocHashFieldName

/-- The bytes that `computeDocumentHash` passes to `XXH64`, one case per path of the source. -/
def hashedBytes (doc : BSONObj) : List UInt8 :=
  if doc.hasField kDocHashFieldName then
    match doc with
    | firstElem :: rest =>
        if firstElem.1 = kDocHashFieldName then
          -- from the end of the hash element to the terminator; both branches on
          -- `remainingSize > 0` hash exactly these bytes
          elementsBytes rest
        else (withoutHashField doc).objdata
    | [] => (withoutHashField doc).objdata
  else doc.objdata

/-- `computeDocumentHash`: XXH64 with seed 0. -/
def computeDocumentHash (doc : BSONObj) : UInt64 :=
  xxh64 (hashedBytes doc) 0

/-- `extractDocumentHash`: the first `_$docHash` element, when it is a NumberLong. -/
def extractDocumentHash (doc : BSONObj) : Option UInt64 :=
  match doc.getField kDocHashFieldName with
  | some (_, .scalar (.numberLong value)) => some value.toUInt64
  | _ => none

/-- `verifyDocumentIntegrity`. -/
def verifyDocumentIntegrity (doc : BSONObj) : Except Status Unit :=
  match extractDocumentHash doc with
  | none =>
      if doc.hasField kDocHashFieldName then
        .error ⟨.badValue, kDocHashFieldName ++ " is a reserved field and must be a NumberLong"⟩
      else .ok ()
  | some expectedHash =>
      let actualHash := computeDocumentHash doc
      if actualHash != expectedHash then
        .error ⟨.documentIntegrityError,
          "Document integrity verification failed. Expected hash: " ++ toString expectedHash ++
            ", actual hash: " ++ toString actualHash⟩
      else .ok ()

/-- `stripHashField`: a copy of a document without the field is the document itself. -/
def stripHashField (doc : BSONObj) : BSONObj :=
  if !doc.hasField kDocHashFieldName then doc else withoutHashField doc

/-- The element a client prepends or inserts: the hash as a NumberLong. -/
def hashElement (hash : UInt64) : BSONElement :=
  (kDocHashFieldName, .scalar (.numberLong hash.toInt64))

theorem withoutHashField_of_not_hasField {doc : BSONObj}
    (clean : doc.hasField kDocHashFieldName = false) : withoutHashField doc = doc := by
  rw [withoutHashField, List.filter_eq_self]
  intro elem member
  have named : elem.1 ≠ kDocHashFieldName := by
    intro same
    have present : doc.hasField kDocHashFieldName = true :=
      BSONObj.hasField_iff.mpr ⟨elem, member, same⟩
    rw [clean] at present
    cases present
  simpa using named

theorem stripHashField_eq (doc : BSONObj) : stripHashField doc = withoutHashField doc := by
  cases present : doc.hasField kDocHashFieldName with
  | false => simp [stripHashField, present, withoutHashField_of_not_hasField present]
  | true => simp [stripHashField, present]

theorem hasField_withoutHashField (doc : BSONObj) :
    (withoutHashField doc).hasField kDocHashFieldName = false := by
  apply Bool.eq_false_iff.mpr
  intro present
  obtain ⟨elem, member, named⟩ := BSONObj.hasField_iff.mp present
  simp only [withoutHashField, List.mem_filter, bne_iff_ne, ne_eq] at member
  exact member.2 named

/-- `stripHashField` leaves no top-level `_$docHash`, whatever the document held. -/
theorem hasField_stripHashField (doc : BSONObj) :
    (stripHashField doc).hasField kDocHashFieldName = false := by
  rw [stripHashField_eq]
  exact hasField_withoutHashField doc

theorem withoutHashField_append (front back : BSONObj) :
    withoutHashField (front ++ back) = withoutHashField front ++ withoutHashField back := by
  simp [withoutHashField]

theorem withoutHashField_hashElement (hash : UInt64) (rest : BSONObj) :
    withoutHashField (hashElement hash :: rest) = withoutHashField rest := by
  simp [withoutHashField, hashElement]

/-- A document without the field is hashed whole. -/
theorem hashedBytes_of_not_hasField {doc : BSONObj}
    (clean : doc.hasField kDocHashFieldName = false) : hashedBytes doc = doc.objdata := by
  simp [hashedBytes, clean]

/-- With the field first, only the element bytes after it are hashed. -/
theorem hashedBytes_hashFirst (value : Value) (rest : BSONObj) :
    hashedBytes ((kDocHashFieldName, value) :: rest) = elementsBytes rest := by
  have present : BSONObj.hasField ((kDocHashFieldName, value) :: rest) kDocHashFieldName = true :=
    BSONObj.hasField_iff.mpr ⟨_, List.mem_cons_self, rfl⟩
  simp [hashedBytes, present]

/-- With the field present but not first, the stripped document is hashed whole. -/
theorem hashedBytes_hashLater {firstElem : BSONElement} {rest : BSONObj}
    (notFirst : firstElem.1 ≠ kDocHashFieldName) :
    hashedBytes (firstElem :: rest) = (stripHashField (firstElem :: rest)).objdata := by
  rw [stripHashField_eq]
  by_cases present : BSONObj.hasField (firstElem :: rest) kDocHashFieldName = true
  · simp [hashedBytes, present, notFirst]
  · have clean : BSONObj.hasField (firstElem :: rest) kDocHashFieldName = false := by
      simpa using present
    rw [hashedBytes_of_not_hasField clean, withoutHashField_of_not_hasField clean]

theorem extractDocumentHash_of_getField {doc : BSONObj} {hash : UInt64}
    (found : doc.getField kDocHashFieldName = some (hashElement hash)) :
    extractDocumentHash doc = some hash := by
  simp [extractDocumentHash, found, hashElement]

/-- `verifyDocumentIntegrity` accepts a document whose first `_$docHash` is a NumberLong equal to
its computed hash. -/
theorem verifyDocumentIntegrity_ok {doc : BSONObj} {hash : UInt64}
    (found : doc.getField kDocHashFieldName = some (hashElement hash))
    (agrees : computeDocumentHash doc = hash) : verifyDocumentIntegrity doc = .ok () := by
  simp [verifyDocumentIntegrity, extractDocumentHash_of_getField found, agrees]

/-- `verifyDocumentIntegrity` accepts a document without a `_$docHash` field: nothing is checked. -/
theorem verifyDocumentIntegrity_of_not_hasField {doc : BSONObj}
    (clean : doc.hasField kDocHashFieldName = false) : verifyDocumentIntegrity doc = .ok () := by
  have missing : doc.getField kDocHashFieldName = none := by
    simpa [BSONObj.hasField] using clean
  simp [verifyDocumentIntegrity, extractDocumentHash, missing, clean]

/-- `verifyDocumentIntegrity` rejects a document whose first `_$docHash` is a NumberLong that
differs from its computed hash, with `DocumentIntegrityError`. -/
theorem verifyDocumentIntegrity_mismatch {doc : BSONObj} {hash : UInt64}
    (found : doc.getField kDocHashFieldName = some (hashElement hash))
    (differ : computeDocumentHash doc ≠ hash) :
    ∃ reason, verifyDocumentIntegrity doc = .error ⟨.documentIntegrityError, reason⟩ := by
  simp [verifyDocumentIntegrity, extractDocumentHash_of_getField found, differ]

/-- `verifyDocumentIntegrity` fails only with `BadValue` or `DocumentIntegrityError`. -/
theorem verifyDocumentIntegrity_error_code {doc : BSONObj} {status : Status}
    (failed : verifyDocumentIntegrity doc = .error status) :
    status.code = .badValue ∨ status.code = .documentIntegrityError := by
  unfold verifyDocumentIntegrity at failed
  split at failed
  · split at failed
    · simp only [Except.error.injEq] at failed
      exact .inl (by rw [← failed])
    · cases failed
  · dsimp only at failed
    split at failed
    · simp only [Except.error.injEq] at failed
      exact .inr (by rw [← failed])
    · cases failed

theorem getField_hashElement_cons (hash : UInt64) (rest : BSONObj) :
    BSONObj.getField (hashElement hash :: rest) kDocHashFieldName = some (hashElement hash) := by
  simp [BSONObj.getField, hashElement]

theorem getField_hashElement_middle {front : BSONObj} (hash : UInt64) (back : BSONObj)
    (clean : front.hasField kDocHashFieldName = false) :
    BSONObj.getField (front ++ hashElement hash :: back) kDocHashFieldName =
      some (hashElement hash) := by
  induction front with
  | nil => exact getField_hashElement_cons hash back
  | cons elem rest ih =>
      have named : elem.1 ≠ kDocHashFieldName := by
        intro same
        have present : BSONObj.hasField (elem :: rest) kDocHashFieldName = true :=
          BSONObj.hasField_iff.mpr ⟨elem, List.mem_cons_self, same⟩
        rw [clean] at present
        cases present
      have restClean : BSONObj.hasField rest kDocHashFieldName = false := by
        have split := BSONObj.hasField_append [elem] rest kDocHashFieldName
        rw [List.singleton_append, clean] at split
        exact (Bool.or_eq_false_iff.mp split.symm).2
      rw [List.cons_append, BSONObj.getField_cons, if_neg named, ih restClean]

end FastMongo.Integrity

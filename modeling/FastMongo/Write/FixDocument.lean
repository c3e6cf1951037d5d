import FastMongo.Base.Status
import FastMongo.Bson.Encode

/-!
`fixDocumentForInsert` of `insert.cpp`: the size limit, the first pass that rejects `$`-prefixed
top-level names and bad or repeated `_id` values, and the rebuild that moves `_id` to the front
(generating one when it is missing) and fills zero timestamps. The generated `ObjectId`, the
timestamps of `getNextGlobalTimestamp` and the `storageValidEmbedded` check of an object `_id`
are inputs of the model.
-/

namespace FastMongo.Write

open FastMongo.Bson

/-- `BSONObjMaxUserSize`. -/
def BSONObjMaxUserSize : Nat := 16 * 1024 * 1024

/-- A top-level `Timestamp(0, 0)`, which the insert replaces with a fresh timestamp. -/
def isZeroTimestamp : Value → Bool
  | .scalar (.bsonTimestamp 0) => true
  | _ => false

/-- What the first pass of `fixDocumentForInsert` learns about a document. -/
structure InsertScan where
  firstElementIsId : Bool
  hasTimestampToFix : Bool
  hadId : Bool
  deriving DecidableEq, Repr

/-- The first pass of `fixDocumentForInsert` over the elements from `isFirstElement` on. -/
def scanForInsert (storageValidEmbedded : BSONObj → Except Status Unit) :
    Bool → InsertScan → BSONObj → StatusWith InsertScan
  | _, scan, [] => .ok scan
  | isFirstElement, scan, (fieldName, e) :: rest =>
      let scan := if isZeroTimestamp e then { scan with hasTimestampToFix := true } else scan
      if fieldName.front == '$' then
        .error ⟨.badValue, "Document can't have $ prefixed field names: " ++ fieldName⟩
      else if fieldName = "_id" then
        if e.type = .regEx then .error ⟨.badValue, "can't use a regex for _id"⟩
        else if e.type = .undefined then .error ⟨.badValue, "can't use a undefined for _id"⟩
        else if e.type = .array then .error ⟨.badValue, "can't use an array for _id"⟩
        else
          let embedded : Except Status Unit :=
            match e with
            | .object o => storageValidEmbedded o
            | _ => .ok ()
          match embedded with
          | .error s => .error s
          | .ok () =>
              if scan.hadId then
                .error ⟨.badValue, "can't have multiple _id fields in one document"⟩
              else
                scanForInsert storageValidEmbedded false
                  { scan with hadId := true, firstElementIsId := isFirstElement } rest
      else scanForInsert storageValidEmbedded false scan rest

/-- The rebuild loop: drops the other `_id` elements and fills each zero timestamp with the next
global timestamp, `issued` of them being taken already. -/
def rebuildForInsert (hadId : Bool) (globalTimestamps : Nat → UInt64) :
    Nat → BSONObj → BSONObj
  | _, [] => []
  | issued, (fieldName, e) :: rest =>
      if hadId && fieldName == "_id" then rebuildForInsert hadId globalTimestamps issued rest
      else if isZeroTimestamp e then
        (fieldName, .scalar (.bsonTimestamp (globalTimestamps issued))) ::
          rebuildForInsert hadId globalTimestamps (issued + 1) rest
      else (fieldName, e) :: rebuildForInsert hadId globalTimestamps issued rest

/-- `fixDocumentForInsert`: the empty document when nothing needs fixing, else the document
with `_id` first. -/
def fixDocumentForInsert (newOid : Vector UInt8 12) (globalTimestamps : Nat → UInt64)
    (storageValidEmbedded : BSONObj → Except Status Unit) (doc : BSONObj) :
    StatusWith BSONObj :=
  if doc.objsize > BSONObjMaxUserSize then
    .error ⟨.badValue, "object to insert too large" ++ ". size in bytes: " ++
      toString doc.objsize ++ ", max size: " ++ toString BSONObjMaxUserSize⟩
  else
    match scanForInsert storageValidEmbedded true ⟨false, false, false⟩ doc with
    | .error status => .error status
    | .ok scan =>
        if scan.firstElementIsId && !scan.hasTimestampToFix then .ok []
        else
          -- the first element is kept as it is, or `doc["_id"]`, or a generated `ObjectId`
          let (idElement, rest) : BSONElement × BSONObj :=
            match scan.firstElementIsId, doc with
            | true, first :: rest => (first, rest)
            | _, _ =>
                match doc.getField "_id" with
                | some e => (e, doc)
                | none => (("_id", .scalar (.jstOID newOid)), doc)
          .ok (idElement :: rebuildForInsert scan.hadId globalTimestamps 0 rest)

theorem names_rebuildForInsert (hadId : Bool) (globalTimestamps : Nat → UInt64) :
    ∀ (issued : Nat) (rest : BSONObj),
      ∀ element ∈ rebuildForInsert hadId globalTimestamps issued rest,
        ∃ original ∈ rest, original.1 = element.1
  | _, [] => by simp [rebuildForInsert]
  | issued, (fieldName, e) :: rest => by
      intro element member
      unfold rebuildForInsert at member
      split at member
      · obtain ⟨original, inside, named⟩ := names_rebuildForInsert hadId globalTimestamps _ rest
          element member
        exact ⟨original, List.mem_cons_of_mem _ inside, named⟩
      · split at member
        all_goals
          rcases List.mem_cons.mp member with first | later
          · exact ⟨(fieldName, e), List.mem_cons_self, by rw [first]⟩
          · obtain ⟨original, inside, named⟩ := names_rebuildForInsert hadId globalTimestamps _
              rest element later
            exact ⟨original, List.mem_cons_of_mem _ inside, named⟩

/-- Every field of a fixed document is `_id` or a field of the document it fixes. -/
theorem names_fixDocumentForInsert {newOid : Vector UInt8 12} {globalTimestamps : Nat → UInt64}
    {storageValidEmbedded : BSONObj → Except Status Unit} {doc fixed : BSONObj}
    (accepted : fixDocumentForInsert newOid globalTimestamps storageValidEmbedded doc = .ok fixed) :
    ∀ element ∈ fixed, element.1 = "_id" ∨ ∃ original ∈ doc, original.1 = element.1 := by
  unfold fixDocumentForInsert at accepted
  split at accepted
  · cases accepted
  split at accepted
  · cases accepted
  rename_i scan _
  split at accepted
  · simp only [Except.ok.injEq] at accepted
    simp [← accepted]
  -- the front element and the source of the rebuilt rest
  obtain ⟨idElement, rest, front, frontKind, restInDoc⟩ : ∃ idElement rest,
      fixed = idElement :: rebuildForInsert scan.hadId globalTimestamps 0 rest ∧
        (idElement.1 = "_id" ∨ idElement ∈ doc) ∧ ∀ element ∈ rest, element ∈ doc := by
    split at accepted
    rename_i idElement rest picked
    simp only [Except.ok.injEq] at accepted
    refine ⟨idElement, rest, accepted.symm, ?_⟩
    split at picked
    · rename_i first tail
      simp only [Prod.mk.injEq] at picked
      obtain ⟨rfl, rfl⟩ := picked
      exact ⟨.inr List.mem_cons_self, fun element member => List.mem_cons_of_mem _ member⟩
    · split at picked
      · rename_i e found
        simp only [Prod.mk.injEq] at picked
        obtain ⟨rfl, rfl⟩ := picked
        exact ⟨.inr (BSONObj.getField_mem found), fun element member => member⟩
      · simp only [Prod.mk.injEq] at picked
        obtain ⟨rfl, rfl⟩ := picked
        exact ⟨.inl rfl, fun element member => member⟩
  intro element member
  rw [front] at member
  rcases List.mem_cons.mp member with first | later
  · subst first
    rcases frontKind with named | inside
    · exact .inl named
    · exact .inr ⟨element, inside, rfl⟩
  · obtain ⟨original, inside, named⟩ := names_rebuildForInsert _ _ 0 rest element later
    exact .inr ⟨original, restInDoc original inside, named⟩

/-- `fixDocumentForInsert` adds no field but `_id`. -/
theorem hasField_fixDocumentForInsert {newOid : Vector UInt8 12}
    {globalTimestamps : Nat → UInt64} {storageValidEmbedded : BSONObj → Except Status Unit}
    {doc fixed : BSONObj}
    (accepted : fixDocumentForInsert newOid globalTimestamps storageValidEmbedded doc = .ok fixed)
    {name : String} (notId : name ≠ "_id") (present : fixed.hasField name = true) :
    doc.hasField name = true := by
  obtain ⟨element, member, named⟩ := BSONObj.hasField_iff.mp present
  rcases names_fixDocumentForInsert accepted element member with isId | ⟨original, inside, same⟩
  · exact absurd (named ▸ isId) notId
  · exact BSONObj.hasField_iff.mpr ⟨original, inside, same.trans named⟩

/-- One element of the first pass fails with `BadValue` or with the embedded check, or the pass goes
on to the rest. -/
theorem scanForInsert_cons_error {storageValidEmbedded : BSONObj → Except Status Unit}
    {isFirstElement : Bool} {scan : InsertScan} {fieldName : String} {e : Value} {rest : BSONObj}
    {status : Status}
    (failed : scanForInsert storageValidEmbedded isFirstElement scan ((fieldName, e) :: rest) =
      .error status) :
    status.code = .badValue ∨ (∃ embedded, storageValidEmbedded embedded = .error status) ∨
      ∃ scan', scanForInsert storageValidEmbedded false scan' rest = .error status := by
  simp only [scanForInsert] at failed
  split_ifs at failed
  -- the four refusals of a field name or an `_id` type, and a field other than `_id`
  any_goals first
    | (cases failed; exact .inl rfl)
    | exact .inr (.inr ⟨_, failed⟩)
  -- an accepted `_id` type: the embedded check, then the duplicate `_id` split above
  all_goals
    split at failed
    · rename_i refused
      cases failed
      split at refused
      · exact .inr (.inl ⟨_, refused⟩)
      · cases refused
    · first
        | (cases failed; exact .inl rfl)
        | exact .inr (.inr ⟨_, failed⟩)

/-- The first pass fails only with `BadValue` or with what `storageValidEmbedded` says. -/
theorem scanForInsert_error (storageValidEmbedded : BSONObj → Except Status Unit) :
    ∀ (doc : BSONObj) (isFirstElement : Bool) (scan : InsertScan) {status : Status},
      scanForInsert storageValidEmbedded isFirstElement scan doc = .error status →
      status.code = .badValue ∨ ∃ embedded, storageValidEmbedded embedded = .error status
  | [], _, _, _, failed => by cases failed
  | (_, _) :: rest, _, _, _, failed => by
      rcases scanForInsert_cons_error failed with refused | refused | ⟨scan', later⟩
      · exact .inl refused
      · exact .inr refused
      · exact scanForInsert_error storageValidEmbedded rest false scan' later

/-- `fixDocumentForInsert` fails only with `BadValue` or with what `storageValidEmbedded` says. -/
theorem fixDocumentForInsert_error {newOid : Vector UInt8 12} {globalTimestamps : Nat → UInt64}
    {storageValidEmbedded : BSONObj → Except Status Unit} {doc : BSONObj} {status : Status}
    (failed : fixDocumentForInsert newOid globalTimestamps storageValidEmbedded doc = .error status) :
    status.code = .badValue ∨ ∃ embedded, storageValidEmbedded embedded = .error status := by
  unfold fixDocumentForInsert at failed
  split at failed
  · cases failed
    exact .inl rfl
  · split at failed
    · rename_i scanFailed
      cases failed
      exact scanForInsert_error storageValidEmbedded doc true _ scanFailed
    · split at failed <;> cases failed

end FastMongo.Write

import FastMongo.Write.InsertContract
import FastMongo.Write.FixDocument
import FastMongo.Lib.Reachability

/-!
The documents of one collection under the write commands that reach storage: insert
(`performInserts`), update (`performSingleUpdateOp`) and findAndModify (`makeUpdateRequest` and
its remove path). The integrity branches are modelled as the source has them. The update
subsystem below them (query matching, `UpdateDriver` and the upsert seed) is an input, an
`UpdateEngine`; the results here say which of its behaviours decide whether a stored document
can hold a top-level `_$docHash`, the property the `_$docHash` index ban relies on.
-/

namespace FastMongo.Write

open FastMongo.Bson FastMongo.Integrity

/-- The integrity branch that `performSingleUpdateOp` and `makeUpdateRequest` both run on the
update spec: verify and strip a top-level `_$docHash`; `uassertStatusOK` turns a failure into
the command's error. -/
def verifiedUpdateSpec (updateSpec : BSONObj) : StatusWith BSONObj :=
  if updateSpec.hasField kDocHashFieldName then
    match verifyDocumentIntegrity updateSpec with
    | .ok () => .ok (stripHashField updateSpec)
    | .error status => .error status
  else .ok updateSpec

/-- The update spec `makeUpdateRequest` sets on the request. -/
def makeUpdateRequest (updateObj : BSONObj) : StatusWith BSONObj :=
  verifiedUpdateSpec updateObj

/-- The update subsystem below the integrity branch. -/
structure UpdateEngine where
  /-- Whether a stored document matches the query. -/
  matchesQuery : BSONObj → BSONObj → Bool
  /-- `UpdateDriver::update` of a matched document by the update spec. -/
  applyUpdate : BSONObj → BSONObj → StatusWith BSONObj
  /-- The document an upsert inserts, seeded from the query and then updated by the spec. -/
  upsertDocument : BSONObj → BSONObj → StatusWith BSONObj

/-- One statement of an update command. -/
structure SingleUpdate where
  query : BSONObj
  update : BSONObj
  multi : Bool
  upsert : Bool
  deriving DecidableEq, Repr

/-- What the update stage leaves: the documents, the error it stopped at, and whether any
document matched. -/
structure StageResult where
  documents : List BSONObj
  error : Option Status
  matched : Bool

/-- The update stage over the stored documents in storage order. Each matching document is
replaced by its update; a single update stops after its first match, and an error stops the
stage with the documents it already wrote. -/
def updateStage (engine : UpdateEngine) (query updateSpec : BSONObj) (multi : Bool) :
    List BSONObj → StageResult
  | [] => ⟨[], none, false⟩
  | doc :: rest =>
      if engine.matchesQuery query doc then
        match engine.applyUpdate updateSpec doc with
        | .error status => ⟨doc :: rest, some status, true⟩
        | .ok updated =>
            if multi then
              let later := updateStage engine query updateSpec multi rest
              ⟨updated :: later.documents, later.error, true⟩
            else ⟨updated :: rest, none, true⟩
      else
        let later := updateStage engine query updateSpec multi rest
        ⟨doc :: later.documents, later.error, later.matched⟩

/-- The update below the integrity branch: the update stage, then the upsert when nothing
matched. -/
def runUpdate (engine : UpdateEngine) (query updateSpec : BSONObj) (multi upsert : Bool)
    (stored : List BSONObj) : List BSONObj × SingleResult :=
  let stage := updateStage engine query updateSpec multi stored
  match stage.error with
  | some status => (stage.documents, .error status)
  | none =>
      if !stage.matched && upsert then
        match engine.upsertDocument query updateSpec with
        | .ok inserted => (stage.documents ++ [inserted], .ok ())
        | .error status => (stage.documents, .error status)
      else (stage.documents, .ok ())

/-- `performSingleUpdateOp`: the documents after the statement and its result. -/
def performSingleUpdateOp (engine : UpdateEngine) (op : SingleUpdate) (stored : List BSONObj) :
    List BSONObj × SingleResult :=
  match verifiedUpdateSpec op.update with
  | .error status => (stored, .error status)
  | .ok updateSpec => runUpdate engine op.query updateSpec op.multi op.upsert stored

/-- A findAndModify request: an update (`some` spec) or a remove (`none`). -/
structure FindAndModifyRequest where
  query : BSONObj
  update : Option BSONObj
  upsert : Bool
  deriving DecidableEq, Repr

/-- The remove path of findAndModify: the first matching document goes. -/
def removeFirst (engine : UpdateEngine) (query : BSONObj) : List BSONObj → List BSONObj
  | [] => []
  | doc :: rest => if engine.matchesQuery query doc then rest else doc :: removeFirst engine query rest

/-- findAndModify on the stored documents. -/
def findAndModify (engine : UpdateEngine) (request : FindAndModifyRequest)
    (stored : List BSONObj) : List BSONObj × SingleResult :=
  match request.update with
  | none => (removeFirst engine request.query stored, .ok ())
  | some updateObj =>
      match makeUpdateRequest updateObj with
      | .error status => (stored, .error status)
      | .ok updateSpec => runUpdate engine request.query updateSpec false request.upsert stored

/-- A write command on the collection, with the storage outcomes of an insert. -/
inductive Command where
  | insert (documents : List BSONObj) (config : InsertConfig) (attempt : List Nat → Option Status)
  | update (op : SingleUpdate)
  | findAndModify (request : FindAndModifyRequest)

/-- One command on the stored documents; an insert appends what it committed. -/
def step (engine : UpdateEngine) (fix : BSONObj → StatusWith BSONObj) (stored : List BSONObj) :
    Command → Option (List BSONObj)
  | .insert documents config attempt =>
      some (stored ++ (performInserts attempt fix config documents).committed.map Prod.snd)
  | .update op => some (performSingleUpdateOp engine op stored).1
  | .findAndModify request => some (findAndModify engine request stored).1

/-- The stored documents reachable from an empty collection. -/
def StoreReachable (engine : UpdateEngine) (fix : BSONObj → StatusWith BSONObj)
    (stored : List BSONObj) : Prop :=
  StepSystem.Reachable (step engine fix) [] stored

/-! ### What reaches the update subsystem -/

/-- The update spec handed below the integrity branch has no top-level `_$docHash`. -/
theorem hasField_verifiedUpdateSpec {updateSpec verified : BSONObj}
    (accepted : verifiedUpdateSpec updateSpec = .ok verified) :
    verified.hasField kDocHashFieldName = false := by
  unfold verifiedUpdateSpec at accepted
  split at accepted
  · split at accepted
    · simp only [Except.ok.injEq] at accepted
      rw [← accepted]
      exact hasField_stripHashField updateSpec
    · cases accepted
  · rename_i absent
    simp only [Except.ok.injEq] at accepted
    rw [← accepted]
    simpa using absent

/-- Every document the update stage leaves was stored before or is the update of a stored
one. -/
theorem mem_updateStage (engine : UpdateEngine) (query updateSpec : BSONObj) (multi : Bool) :
    ∀ (stored : List BSONObj), ∀ doc ∈ (updateStage engine query updateSpec multi stored).documents,
      doc ∈ stored ∨ ∃ old ∈ stored, engine.applyUpdate updateSpec old = .ok doc
  | [] => by simp [updateStage]
  | first :: rest => by
      intro doc member
      -- a document of the rest is accounted for by the rest
      have inRest : ∀ {doc}, doc ∈ (updateStage engine query updateSpec multi rest).documents →
          doc ∈ first :: rest ∨ ∃ old ∈ first :: rest, engine.applyUpdate updateSpec old = .ok doc :=
        fun later => by
          rcases mem_updateStage engine query updateSpec multi rest _ later with old | ⟨old, inside, updated⟩
          · exact .inl (List.mem_cons_of_mem _ old)
          · exact .inr ⟨old, List.mem_cons_of_mem _ inside, updated⟩
      unfold updateStage at member
      split at member
      · split at member
        · exact .inl member
        · rename_i updated applied
          split at member
          all_goals
            rcases List.mem_cons.mp member with same | later
            · exact .inr ⟨first, List.mem_cons_self, same ▸ applied⟩
          · exact inRest later
          · exact .inl (List.mem_cons_of_mem _ later)
      · rcases List.mem_cons.mp member with same | later
        · exact .inl (same ▸ List.mem_cons_self)
        · exact inRest later

/-- Every document an update leaves was stored before, is the update of a stored one, or is
the one an upsert inserted. -/
theorem mem_runUpdate {engine : UpdateEngine} {query updateSpec : BSONObj} {multi upsert : Bool}
    {stored : List BSONObj} {doc : BSONObj}
    (member : doc ∈ (runUpdate engine query updateSpec multi upsert stored).1) :
    doc ∈ stored ∨ (∃ old ∈ stored, engine.applyUpdate updateSpec old = .ok doc) ∨
      upsert = true ∧ engine.upsertDocument query updateSpec = .ok doc := by
  have fromStage : doc ∈ (updateStage engine query updateSpec multi stored).documents →
      doc ∈ stored ∨ (∃ old ∈ stored, engine.applyUpdate updateSpec old = .ok doc) ∨
        upsert = true ∧ engine.upsertDocument query updateSpec = .ok doc := fun inStage => by
    rcases mem_updateStage engine query updateSpec multi stored doc inStage with old | updated
    · exact .inl old
    · exact .inr (.inl updated)
  unfold runUpdate at member
  dsimp only at member
  split at member
  · exact fromStage member
  · split at member
    · rename_i upserting
      have upserts : upsert = true := by
        simp only [Bool.and_eq_true] at upserting
        exact upserting.2
      split at member
      · rename_i inserted upserted
        rcases List.mem_append.mp member with inStage | added
        · exact fromStage inStage
        · simp only [List.mem_singleton] at added
          exact .inr (.inr ⟨upserts, added ▸ upserted⟩)
      · exact fromStage member
    · exact fromStage member

theorem mem_removeFirst (engine : UpdateEngine) (query : BSONObj) :
    ∀ (stored : List BSONObj), ∀ doc ∈ removeFirst engine query stored, doc ∈ stored
  | [] => by simp [removeFirst]
  | first :: rest => by
      intro doc member
      unfold removeFirst at member
      split at member
      · exact List.mem_cons_of_mem _ member
      · rcases List.mem_cons.mp member with same | later
        · exact same ▸ List.mem_cons_self
        · exact List.mem_cons_of_mem _ (mem_removeFirst engine query rest doc later)

/-! ### The stored documents without a top-level `_$docHash` -/

/-- No stored document has a top-level `_$docHash`. -/
def NoStoredHashField (stored : List BSONObj) : Prop :=
  ∀ doc ∈ stored, doc.hasField kDocHashFieldName = false

mutual
/-- Whether a value names `name` anywhere in it: as a field name, or as a string, the way
`$rename` names the field it renames to. -/
def valueMentions (name : String) : Value → Bool
  | .scalar (.string text) => text == name
  | .scalar _ => false
  | .object fields => fieldsMention name fields
  | .array items => fieldsMention name items

/-- Whether a document names `name` anywhere: as a field name, or inside a value. -/
def fieldsMention (name : String) : List (String × Value) → Bool
  | [] => false
  | (field, value) :: rest => field == name || valueMentions name value || fieldsMention name rest
end

/-- A top-level field is named. -/
theorem fieldsMention_of_hasField {obj : BSONObj} {name : String}
    (present : obj.hasField name = true) : fieldsMention name obj = true := by
  obtain ⟨element, member, named⟩ := BSONObj.hasField_iff.mp present
  clear present
  induction obj with
  | nil => cases member
  | cons first rest ih =>
      obtain ⟨field, value⟩ := first
      rcases List.mem_cons.mp member with same | later
      · subst same
        simp only at named
        simp [fieldsMention, named]
      · simp [fieldsMention, ih later]

/-- The update subsystem below the integrity branch writes a top-level `_$docHash` only where the
statement names it: into an updated document that had none only when the spec names `_$docHash`
somewhere (as `{$set: {_$docHash: ...}}` or `{$rename: {a: "_$docHash"}}` do), and into an
upserted document only when the query or the spec names it. -/
structure WritesHashFieldOnlyNamed (engine : UpdateEngine) : Prop where
  applyUpdate : ∀ updateSpec doc updated, engine.applyUpdate updateSpec doc = .ok updated →
    doc.hasField kDocHashFieldName = false → fieldsMention kDocHashFieldName updateSpec = false →
    updated.hasField kDocHashFieldName = false
  upsertDocument : ∀ query updateSpec inserted, engine.upsertDocument query updateSpec = .ok inserted →
    fieldsMention kDocHashFieldName query = false →
    fieldsMention kDocHashFieldName updateSpec = false → inserted.hasField kDocHashFieldName = false

/-- A statement that names `_$docHash` only where the integrity branch strips it: in its spec at
most as a top-level field, and, for an upsert, nowhere in its query. -/
def namesHashOnlyAtTop (query updateSpec : BSONObj) (upsert : Bool) : Bool :=
  !fieldsMention kDocHashFieldName (stripHashField updateSpec) &&
    (!upsert || !fieldsMention kDocHashFieldName query)

/-- A command all of whose update statements name `_$docHash` only where it is stripped. -/
def Command.namesHashOnlyAtTop : Command → Bool
  | .insert _ _ _ => true
  | .update op => FastMongo.Write.namesHashOnlyAtTop op.query op.update op.upsert
  | .findAndModify request =>
      match request.update with
      | none => true
      | some updateObj => FastMongo.Write.namesHashOnlyAtTop request.query updateObj request.upsert

/-- The spec the integrity branch hands on is the statement's spec without its top-level
`_$docHash`. -/
theorem verifiedUpdateSpec_eq {updateSpec verified : BSONObj}
    (accepted : verifiedUpdateSpec updateSpec = .ok verified) :
    verified = stripHashField updateSpec := by
  unfold verifiedUpdateSpec at accepted
  split at accepted
  · split at accepted
    · simp only [Except.ok.injEq] at accepted
      exact accepted.symm
    · cases accepted
  · rename_i absent
    simp only [Except.ok.injEq] at accepted
    rw [← accepted, stripHashField_eq, withoutHashField_of_not_hasField (by simpa using absent)]

/-- `fixedForInsert` adds no field that `fixDocumentForInsert` does not add. -/
theorem hasField_fixedForInsert {fix : BSONObj → StatusWith BSONObj} {name : String}
    (fixKeepsOut : ∀ doc fixed, fix doc = .ok fixed → fixed.hasField name = true →
      doc.hasField name = true)
    {doc toInsert : BSONObj} (absent : doc.hasField name = false)
    (accepted : fixedForInsert fix doc = .ok toInsert) : toInsert.hasField name = false := by
  unfold fixedForInsert at accepted
  split at accepted
  · cases accepted
  · rename_i fixed fixing
    simp only [Except.ok.injEq] at accepted
    subst accepted
    split
    · exact absent
    · apply Bool.eq_false_iff.mpr
      intro present
      rw [fixKeepsOut doc fixed fixing present] at absent
      cases absent

/-- What preparation hands to storage has no top-level `_$docHash`. -/
theorem hasField_prepareInsert {fix : BSONObj → StatusWith BSONObj}
    (fixKeepsOut : ∀ doc fixed, fix doc = .ok fixed → fixed.hasField kDocHashFieldName = true →
      doc.hasField kDocHashFieldName = true)
    {doc toInsert : BSONObj} (accepted : prepareInsert fix doc = .ok toInsert) :
    toInsert.hasField kDocHashFieldName = false := by
  unfold prepareInsert at accepted
  split at accepted
  · split at accepted
    · exact hasField_fixedForInsert fixKeepsOut (hasField_stripHashField doc) accepted
    · cases accepted
  · rename_i absent
    exact hasField_fixedForInsert fixKeepsOut (by simpa using absent) accepted

/-- `fixDocumentForInsert` adds no `_$docHash`. -/
theorem fixDocumentForInsert_keepsHashFieldOut (newOid : Vector UInt8 12)
    (globalTimestamps : Nat → UInt64) (storageValidEmbedded : BSONObj → Except Status Unit) :
    ∀ doc fixed, fixDocumentForInsert newOid globalTimestamps storageValidEmbedded doc = .ok fixed →
      fixed.hasField kDocHashFieldName = true → doc.hasField kDocHashFieldName = true :=
  fun _ _ accepted present => hasField_fixDocumentForInsert accepted (by decide) present

/-- Whatever storage does, an insert command commits no document with a top-level
`_$docHash`. -/
theorem performInserts_commits_without_hashField (attempt : List Nat → Option Status)
    (newOid : Vector UInt8 12) (globalTimestamps : Nat → UInt64)
    (storageValidEmbedded : BSONObj → Except Status Unit) (config : InsertConfig)
    (documents : List BSONObj) :
    ∀ entry ∈ (performInserts attempt
        (fixDocumentForInsert newOid globalTimestamps storageValidEmbedded) config documents).committed,
      entry.2.hasField kDocHashFieldName = false :=
  performInserts_committed attempt _ config _
    (fun _ _ accepted => hasField_prepareInsert
      (fixDocumentForInsert_keepsHashFieldOut newOid globalTimestamps storageValidEmbedded) accepted)
    documents

/-- A plain document, stored with the `_id` that `fixDocumentForInsert` puts first. -/
theorem performInserts_commits_without_hashField_oneDocument :
    ((0, [("_id", .scalar (.jstOID (Vector.replicate 12 0))), ("a", .scalar (.numberInt 1))]) :
        Nat × BSONObj) ∈
      (performInserts (fun _ => none)
        (fixDocumentForInsert (Vector.replicate 12 0) (fun _ => 0) (fun _ => .ok ()))
        unorderedInsert [[("a", .scalar (.numberInt 1))]]).committed ∧
    BSONObj.hasField [("_id", .scalar (.jstOID (Vector.replicate 12 0))),
      ("a", .scalar (.numberInt 1))] kDocHashFieldName = false :=
  let stored : Nat × BSONObj :=
    (0, [("_id", .scalar (.jstOID (Vector.replicate 12 0))), ("a", .scalar (.numberInt 1))])
  have member : stored ∈ (performInserts (fun _ => none)
      (fixDocumentForInsert (Vector.replicate 12 0) (fun _ => 0) (fun _ => .ok ()))
      unorderedInsert [[("a", .scalar (.numberInt 1))]]).committed := by decide
  ⟨member, performInserts_commits_without_hashField _ _ _ _ _ _ stored member⟩

section Steps

variable {engine : UpdateEngine} {fix : BSONObj → StatusWith BSONObj}
variable (fixKeepsOut : ∀ doc fixed, fix doc = .ok fixed →
  fixed.hasField kDocHashFieldName = true → doc.hasField kDocHashFieldName = true)
variable (writesOnlyNamed : WritesHashFieldOnlyNamed engine)

include writesOnlyNamed in
theorem NoStoredHashField.runUpdate {stored : List BSONObj} (clean : NoStoredHashField stored)
    {query updateSpec : BSONObj} (multi upsert : Bool)
    (specFree : fieldsMention kDocHashFieldName updateSpec = false)
    (queryFree : upsert = true → fieldsMention kDocHashFieldName query = false) :
    NoStoredHashField (runUpdate engine query updateSpec multi upsert stored).1 := by
  intro doc member
  rcases mem_runUpdate member with old | ⟨old, inside, updated⟩ | ⟨upserts, upserted⟩
  · exact clean doc old
  · exact writesOnlyNamed.applyUpdate updateSpec old doc updated (clean old inside) specFree
  · exact writesOnlyNamed.upsertDocument query updateSpec doc upserted (queryFree upserts) specFree

include writesOnlyNamed in
/-- An update statement that names `_$docHash` only at the top of its spec stores none. -/
theorem NoStoredHashField.verifiedUpdate {stored : List BSONObj} (clean : NoStoredHashField stored)
    {query updateObj updateSpec : BSONObj} (multi upsert : Bool)
    (namesAtTop : namesHashOnlyAtTop query updateObj upsert = true)
    (verified : verifiedUpdateSpec updateObj = .ok updateSpec) :
    NoStoredHashField (FastMongo.Write.runUpdate engine query updateSpec multi upsert stored).1 := by
  simp only [namesHashOnlyAtTop, Bool.and_eq_true, Bool.not_eq_true', Bool.or_eq_true] at namesAtTop
  obtain ⟨specFree, queryFree⟩ := namesAtTop
  rw [← verifiedUpdateSpec_eq verified] at specFree
  refine clean.runUpdate writesOnlyNamed multi upsert specFree fun upserts => ?_
  simpa [upserts] using queryFree

include fixKeepsOut writesOnlyNamed in
/-- Every command whose update statements name `_$docHash` only at the top of their spec keeps
the stored documents free of a top-level `_$docHash`. -/
theorem NoStoredHashField.of_step {stored next : List BSONObj} (clean : NoStoredHashField stored)
    {command : Command} (namesAtTop : command.namesHashOnlyAtTop = true)
    (stepped : step engine fix stored command = some next) :
    NoStoredHashField next := by
  cases command with
  | insert documents config attempt =>
      simp only [step, Option.some.injEq] at stepped
      subst stepped
      have committedClean := performInserts_committed attempt fix config _
        (fun _ _ accepted => hasField_prepareInsert fixKeepsOut accepted) documents
      intro doc member
      rcases List.mem_append.mp member with old | new
      · exact clean doc old
      · obtain ⟨entry, committed, rfl⟩ := List.mem_map.mp new
        exact committedClean entry committed
  | update op =>
      simp only [step, Option.some.injEq] at stepped
      subst stepped
      unfold performSingleUpdateOp
      split
      · exact clean
      · rename_i updateSpec verified
        exact clean.verifiedUpdate writesOnlyNamed _ _ namesAtTop verified
  | findAndModify request =>
      simp only [step, Option.some.injEq] at stepped
      subst stepped
      unfold findAndModify
      split
      · exact fun doc member => clean doc (mem_removeFirst engine _ stored doc member)
      · rename_i updateObj named
        simp only [Command.namesHashOnlyAtTop, named] at namesAtTop
        split
        · exact clean
        · rename_i updateSpec verified
          exact clean.verifiedUpdate writesOnlyNamed _ _ namesAtTop verified

end Steps

/-- `$set` of a top-level field that a document lacks appends the field: `ModifierSet` creates
the missing path at the end of the document with `createPathAt`, and storage validation accepts
any name other than `_id` that neither starts with `$` nor holds a dot. -/
def SetAppendsNewField (engine : UpdateEngine) : Prop :=
  ∀ doc name value, doc.hasField name = false → name ≠ "_id" → name.toList.head? ≠ some '$' →
    '.' ∉ name.toList →
    engine.applyUpdate [("$set", .object [(name, value)])] doc = .ok (doc ++ [(name, value)])

/-- The update spec `{$set: {_$docHash: value}}`. -/
def setDocHash (value : Value) : BSONObj :=
  [("$set", .object [(kDocHashFieldName, value)])]

/-- An insert of `{_id: 1}` followed by the update `{$set: {_$docHash: NumberLong(5)}}` of every
document stores a document with a top-level `_$docHash`: the update spec has no top-level
`_$docHash`, so neither the update path nor findAndModify verifies or strips anything. -/
theorem setDocHash_stored (engine : UpdateEngine) (newOid : Vector UInt8 12)
    (globalTimestamps : Nat → UInt64) (storageValidEmbedded : BSONObj → Except Status Unit)
    (emptyQueryMatches : ∀ doc, engine.matchesQuery [] doc = true)
    (setAppends : SetAppendsNewField engine) :
    StoreReachable engine (fixDocumentForInsert newOid globalTimestamps storageValidEmbedded)
      [[("_id", .scalar (.numberInt 1)), (kDocHashFieldName, .scalar (.numberLong 5))]] ∧
    ¬ NoStoredHashField
      [[("_id", .scalar (.numberInt 1)), (kDocHashFieldName, .scalar (.numberLong 5))]] := by
  let fix := fixDocumentForInsert newOid globalTimestamps storageValidEmbedded
  let idOne : BSONObj := [("_id", .scalar (.numberInt 1))]
  -- the insert commits `{_id: 1}` as it is
  have inserted : step engine fix [] (.insert [idOne] unorderedInsert fun _ => none) =
      some [idOne] := rfl
  have specAccepted : verifiedUpdateSpec (setDocHash (.scalar (.numberLong 5))) =
      .ok (setDocHash (.scalar (.numberLong 5))) := rfl
  have appended := setAppends idOne kDocHashFieldName (.scalar (.numberLong 5)) (by decide)
    (by decide) (by decide) (by decide)
  have updated : step engine fix [idOne]
      (.update ⟨[], setDocHash (.scalar (.numberLong 5)), false, false⟩) =
      some [idOne ++ [(kDocHashFieldName, .scalar (.numberLong 5))]] := by
    simp only [step, performSingleUpdateOp, specAccepted, runUpdate, updateStage,
      emptyQueryMatches, if_true]
    rw [setDocHash, appended]
    rfl
  refine ⟨.tail _ (.tail _ .refl inserted) updated, ?_⟩
  intro clean
  have absent := clean _ List.mem_cons_self
  revert absent
  decide

/-- An update subsystem that matches a document holding every element of the query and runs a
`$set` of one top-level field, replacing or appending it; other specs leave the document. -/
def setFieldEngine : UpdateEngine where
  matchesQuery query doc := query.all fun element => decide (element ∈ doc)
  applyUpdate updateSpec doc :=
    match updateSpec with
    | [("$set", .object [(name, value)])] =>
        .ok (if doc.hasField name then doc.map fun e => if e.1 = name then (name, value) else e
          else doc ++ [(name, value)])
    | _ => .ok doc
  upsertDocument query _ := .ok query

theorem setDocHash_stored_setFieldEngine :
    StoreReachable setFieldEngine (fixDocumentForInsert (Vector.replicate 12 0) (fun _ => 0)
        (fun _ => .ok ()))
      [[("_id", .scalar (.numberInt 1)), (kDocHashFieldName, .scalar (.numberLong 5))]] ∧
    ¬ NoStoredHashField
      [[("_id", .scalar (.numberInt 1)), (kDocHashFieldName, .scalar (.numberLong 5))]] :=
  setDocHash_stored setFieldEngine (Vector.replicate 12 0) (fun _ => 0) (fun _ => .ok ())
    (fun _ => rfl)
    (fun doc name value absent _ _ _ => by simp [setFieldEngine, absent])

/-- `setFieldEngine` writes only the field its `$set` names, and upserts its query. -/
theorem setFieldEngine_writesHashFieldOnlyNamed : WritesHashFieldOnlyNamed setFieldEngine where
  applyUpdate updateSpec doc updated applied clean specFree := by
    simp only [setFieldEngine] at applied
    split at applied
    · rename_i name value
      -- the `$set` names its field, so the field it writes is not `_$docHash`
      have other : name ≠ kDocHashFieldName := by
        intro same
        simp [fieldsMention, valueMentions, same] at specFree
      simp only [Except.ok.injEq] at applied
      subst applied
      apply Bool.eq_false_iff.mpr
      intro present
      split at present
      · -- replaced in place: every element keeps its name
        obtain ⟨element, member, named⟩ := BSONObj.hasField_iff.mp present
        obtain ⟨e, inDoc, rfl⟩ := List.mem_map.mp member
        have sameName : (if e.1 = name then (name, value) else e).1 = e.1 := by
          split <;> simp_all
        rw [sameName] at named
        rw [BSONObj.hasField_iff.mpr ⟨e, inDoc, named⟩] at clean
        cases clean
      · rw [BSONObj.hasField_append, clean, Bool.false_or] at present
        obtain ⟨element, member, named⟩ := BSONObj.hasField_iff.mp present
        simp only [List.mem_singleton] at member
        subst member
        exact other named
    · simp only [Except.ok.injEq] at applied
      rw [← applied]
      exact clean
  upsertDocument query _ inserted upserted queryFree _ := by
    simp only [setFieldEngine, Except.ok.injEq] at upserted
    subst upserted
    apply Bool.eq_false_iff.mpr
    intro present
    rw [fieldsMention_of_hasField present] at queryFree
    cases queryFree

/-- `{a: 1}` inserted, then `{$set: {b: 2}}` of the documents holding `a: 1`. -/
def setFieldRun : List Command :=
  [.insert [[("a", .scalar (.numberInt 1))]] unorderedInsert (fun _ => none),
   .update ⟨[("a", .scalar (.numberInt 1))], [("$set", .object [("b", .scalar (.numberInt 2))])],
     false, false⟩]

end FastMongo.Write

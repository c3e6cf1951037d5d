import FastMongo.Integrity.DocumentHash

/-!
`performInserts` of `db/ops/write_ops_exec.cpp` with its integrity branch. Each document is
verified and stripped when it carries `_$docHash`, then fixed by `fixDocumentForInsert`; the
documents that pass are gathered into batches bounded by count and bytes. A batch is flushed
when it is full, at the last document, or before a rejected document's error is reported.
`insertBatchAndHandleErrors` tries a batch of several documents at once (not on a capped
collection) and falls back to one insert per document; `handleError` rethrows interruptions,
stops without a result on a stale-shard-version error, and otherwise records the error and
continues only for an unordered insert.

Storage is an oracle: `attempt positions` is how the `insertDocuments` call for the documents
at those positions ends (`none` commits them), collection acquisition and write-conflict
retries included. The committed documents are recorded in the run.
-/

namespace FastMongo.Write

open FastMongo.Bson FastMongo.Integrity

/-- The parameters of one insert command that the loop reads. -/
structure InsertConfig where
  /-- `internalInsertMaxBatchSize`. -/
  maxBatchSize : Nat
  /-- `insertVectorMaxBytes`. -/
  insertVectorMaxBytes : Nat
  isCapped : Bool
  /-- `wholeOp.continueOnError`: the insert is unordered. -/
  continueOnError : Bool

/-- A `SingleResult`: `n = 1`, or the error of that document. -/
abbrev SingleResult := Except Status Unit

/-- What an insert command has done so far: its `WriteResult` (the results and the stale
config exception), an interruption that escaped, and the documents storage committed. -/
structure InsertRun where
  results : List SingleResult
  staleConfig : Option Status
  thrown : Option Status
  committed : List (Nat × BSONObj)

/-- The run before the first document. -/
def InsertRun.init : InsertRun := ⟨[], none, none, []⟩

/-- `fixDocumentForInsert` on the document to insert; an empty result means the document
needs no change. -/
def fixedForInsert (fixDocumentForInsert : BSONObj → StatusWith BSONObj) (docToInsert : BSONObj) :
    StatusWith BSONObj :=
  match fixDocumentForInsert docToInsert with
  | .error status => .error status
  | .ok fixed => .ok (if fixed.isEmpty then docToInsert else fixed)

/-- The document the loop hands on, or the status reported at its index: a document that carries
`_$docHash` must pass verification and is stripped, then it is fixed. -/
def prepareInsert (fixDocumentForInsert : BSONObj → StatusWith BSONObj) (doc : BSONObj) :
    StatusWith BSONObj :=
  if doc.hasField kDocHashFieldName then
    match verifyDocumentIntegrity doc with
    | .ok () => fixedForInsert fixDocumentForInsert (stripHashField doc)
    | .error integrityStatus => .error integrityStatus
  else fixedForInsert fixDocumentForInsert doc

/-- `handleError`: whether the insert may go on after this exception. -/
def handleError (continueOnError : Bool) (ex : Status) (run : InsertRun) : InsertRun × Bool :=
  if ex.code.isInterruption then ({ run with thrown := some ex }, false)
  else if ex.code.isStaleShardingError then ({ run with staleConfig := some ex }, false)
  else ({ run with results := run.results ++ [.error ex] }, continueOnError)

section Loop

variable (attempt : List Nat → Option Status)

/-- The one-at-a-time loop of `insertBatchAndHandleErrors`. -/
def insertOneAtATime (continueOnError : Bool) :
    List (Nat × BSONObj) → InsertRun → InsertRun × Bool
  | [], run => (run, true)
  | (position, doc) :: rest, run =>
      match attempt [position] with
      | none =>
          insertOneAtATime continueOnError rest
            { run with
              results := run.results ++ [.ok ()]
              committed := run.committed ++ [(position, doc)] }
      | some ex =>
          let (run, canContinue) := handleError continueOnError ex run
          if canContinue then insertOneAtATime continueOnError rest run else (run, false)

/-- `insertBatchAndHandleErrors`: whether the caller should insert more documents. -/
def insertBatchAndHandleErrors (config : InsertConfig) (batch : List (Nat × BSONObj))
    (run : InsertRun) : InsertRun × Bool :=
  if batch.isEmpty then (run, true)
  else if !config.isCapped && batch.length > 1 then
    match attempt (batch.map Prod.fst) with
    | none =>
        ({ run with
          results := run.results ++ batch.map fun _ => .ok ()
          committed := run.committed ++ batch }, true)
    -- the failure of the combined insert is ignored and the documents are retried one by one
    | some _ => insertOneAtATime attempt config.continueOnError batch run
  else insertOneAtATime attempt config.continueOnError batch run

variable (fixDocumentForInsert : BSONObj → StatusWith BSONObj) (config : InsertConfig)

/-- The loop of `performInserts` over the documents not yet taken, each with its index, with
the pending batch and its byte count. -/
def performInsertsLoop :
    List (BSONObj × Nat) → List (Nat × BSONObj) → Nat → InsertRun → InsertRun
  | [], _, _, run => run
  | (doc, position) :: rest, batch, bytesInBatch, run =>
      let isLastDoc := rest.isEmpty
      match prepareInsert fixDocumentForInsert doc with
      | .ok toInsert =>
          let batch := batch ++ [(position, toInsert)]
          let bytesInBatch := bytesInBatch + toInsert.objsize
          if !isLastDoc && batch.length < config.maxBatchSize &&
              bytesInBatch < config.insertVectorMaxBytes then
            performInsertsLoop rest batch bytesInBatch run
          else
            let (run, canContinue) := insertBatchAndHandleErrors attempt config batch run
            if canContinue then performInsertsLoop rest [] 0 run else run
      | .error status =>
          -- the pending batch is flushed before this document's error is reported
          let (run, canContinue) := insertBatchAndHandleErrors attempt config batch run
          let (run, canContinue) :=
            if canContinue then handleError config.continueOnError status run else (run, false)
          if canContinue then performInsertsLoop rest [] 0 run else run

/-- `performInserts` on the documents of one insert command. -/
def performInserts (documents : List BSONObj) : InsertRun :=
  performInsertsLoop attempt fixDocumentForInsert config documents.zipIdx [] 0 InsertRun.init

end Loop

end FastMongo.Write

import FastMongo.Find.Command
import FastMongo.Bson.Encode

/-!
The first batch of a find reply (`find_common.cpp`, `cursor_response.h`, `find_cmd.cpp`). The
ordinary path of `FindCmd::run` takes results from the plan executor while
`FindCommon::haveSpaceForNext` admits the next one beside the bytes already in the batch, and
hands the one that does not fit back to the executor, which a saved cursor then serves to
`getMore`. The coalesced branch appends every document the coalescer returns to the first batch
and closes the cursor.
-/

namespace FastMongo.Find

open FastMongo.Bson

/-- `BSONObjMaxUserSize`. -/
def BSONObjMaxUserSize : Nat := 16 * 1024 * 1024

/-- `FindCommon::kMaxBytesToReturnToClientAtOnce`. -/
def kMaxBytesToReturnToClientAtOnce : Nat := BSONObjMaxUserSize

/-- `QueryRequest::kDefaultBatchSize`. -/
def kDefaultBatchSize : Nat := 101

/-- `FindCommon::haveSpaceForNext`: the first document always fits, so that a find makes
progress; any later one must fit within the limit beside the bytes already buffered. -/
def haveSpaceForNext (nextDoc : BSONObj) (numDocs : Nat) (bytesBuffered : Nat) : Bool :=
  numDocs == 0 || bytesBuffered + nextDoc.objsize ≤ kMaxBytesToReturnToClientAtOnce

/-- `FindCommon::enoughForFirstBatch` with `qr.getEffectiveBatchSize()`. -/
def enoughForFirstBatch (effectiveBatchSize : Option Nat) (numDocs : Nat) : Bool :=
  match effectiveBatchSize with
  | none => numDocs ≥ kDefaultBatchSize
  | some batchSize => numDocs ≥ batchSize

/-- What `BSONArrayBuilder::append` writes for the documents of a batch from index `i` on: each
as an embedded document named by its index. -/
def batchElements : Nat → List BSONObj → BSONObj
  | _, [] => []
  | i, doc :: rest => (toString i, .object doc) :: batchElements (i + 1) rest

/-- The wire protocol of the reply, which decides what the reply buffer holds before the command
writes its reply object: the message header of an OP_COMMAND reply
(`MsgData::MsgDataHeaderSize`), or the header and the fixed fields of an OP_QUERY reply
(`sizeof(QueryResult::Value)`). -/
inductive ReplyProtocol where
  | opCommand
  | opQuery
  deriving DecidableEq, Repr

/-- The bytes `CommandReplyBuilder` or `LegacyReplyBuilder` skips before the reply object. -/
def ReplyProtocol.headerSize : ReplyProtocol → Nat
  | .opCommand => 16
  | .opQuery => 36

/-- `_responseInitialLen`, `commandResponse->bb().len()` when the `CursorResponseBuilder` is made:
the header, and the int32 size that the command's `BSONObjBuilder` skipped. -/
def responseInitialLen (protocol : ReplyProtocol) : Nat :=
  protocol.headerSize + 4

/-- `CursorResponseBuilder::bytesUsed`, `_batch.len()`: the batch's builder writes into the reply
buffer it shares with the command response, so its length counts what the buffer held when the
builder was made, the `cursor` and `firstBatch` elements' type bytes, names and int32 sizes, and
the elements so far. -/
def bytesUsed (protocol : ReplyProtocol) (batch : List BSONObj) : Nat :=
  responseInitialLen protocol + (1 + (cstring "cursor").length + 4) +
    (1 + (cstring "firstBatch").length + 4) + (elementsBytes (batchElements 0 batch)).length

/-- `CursorResponseBuilder::done(cursorId, ns)` of an initial response:
`{cursor: {firstBatch: [...], id: cursorId, ns: ns}}`. -/
def cursorReply (firstBatch : List BSONObj) (cursorId : Int64) (ns : String) : BSONObj :=
  [("cursor", .object [("firstBatch", .array (batchElements 0 firstBatch)),
    ("id", .scalar (.numberLong cursorId)), ("ns", .scalar (.string ns))])]

/-- The first-batch loop of the ordinary path: the batch, and what the executor holds after it.
The loop stops when the batch is full, when the results run out, or at a result that does not
fit, which `exec->enqueue(obj)` puts back in front of the rest. -/
def fillFirstBatch (protocol : ReplyProtocol) (effectiveBatchSize : Option Nat)
    (batch : List BSONObj) : List BSONObj → List BSONObj × List BSONObj
  | [] => (batch, [])
  | obj :: rest =>
      if enoughForFirstBatch effectiveBatchSize batch.length then (batch, obj :: rest)
      else if !haveSpaceForNext obj batch.length (bytesUsed protocol batch) then (batch, obj :: rest)
      else fillFirstBatch protocol effectiveBatchSize (batch ++ [obj]) rest

/-- The reply of the coalesced branch for the coalescer's result: every document in the first
batch of a cursor with id 0. -/
def coalescedFindReply (ns : String) (coalescedResult : StatusWith (List BSONObj)) :
    Option BSONObj :=
  (coalescedReply coalescedResult).map fun documents => cursorReply documents 0 ns

/-- Whether `haveSpaceForNext` admits each of `documents` in turn, appended behind `batch`. -/
def fitsFrom (protocol : ReplyProtocol) (batch : List BSONObj) : List BSONObj → Bool
  | [] => true
  | obj :: rest =>
      haveSpaceForNext obj batch.length (bytesUsed protocol batch) &&
        fitsFrom protocol (batch ++ [obj]) rest

/-- The per-batch bound of the ordinary path: each document admitted by `haveSpaceForNext`
beside those before it. -/
def respectsBatchBound (protocol : ReplyProtocol) (documents : List BSONObj) : Bool :=
  fitsFrom protocol [] documents

theorem batchElements_append (i : Nat) (front back : List BSONObj) :
    batchElements i (front ++ back) = batchElements i front ++ batchElements (i + front.length) back := by
  induction front generalizing i with
  | nil => simp [batchElements]
  | cons doc rest ih =>
      simp only [List.cons_append, batchElements, ih, List.length_cons]
      rw [Nat.add_assoc, Nat.add_comm 1 rest.length]

/-- An appended document adds its own size and its element header. -/
theorem bytesUsed_snoc (protocol : ReplyProtocol) (batch : List BSONObj) (doc : BSONObj) :
    bytesUsed protocol (batch ++ [doc]) =
      bytesUsed protocol batch + 2 + (utf8 (toString batch.length)).length + doc.objsize := by
  simp only [bytesUsed, batchElements_append, elementsBytes_append, batchElements, elementsBytes_cons,
    elementsBytes_nil, elementBytes, BSONObj.objsize, BSONObj.objdata, Value.bytes_object, cstring,
    List.length_append, List.length_cons, List.length_nil, Nat.zero_add, List.append_nil, Value.type_object]
  omega

theorem bytesUsed_le_append (protocol : ReplyProtocol) (front back : List BSONObj) :
    bytesUsed protocol front ≤ bytesUsed protocol (front ++ back) := by
  simp only [bytesUsed, batchElements_append, elementsBytes_append, List.length_append]
  omega

/-- The ordinary path's loop takes a prefix of the results that the bound admits, and leaves the
executor holding exactly the others, in order. -/
theorem fillFirstBatch_spec (protocol : ReplyProtocol) (effectiveBatchSize : Option Nat)
    (batch results : List BSONObj) :
    ∃ taken, (fillFirstBatch protocol effectiveBatchSize batch results).1 = batch ++ taken ∧
      fitsFrom protocol batch taken = true ∧
      taken ++ (fillFirstBatch protocol effectiveBatchSize batch results).2 = results := by
  induction results generalizing batch with
  | nil => exact ⟨[], by simp [fillFirstBatch], rfl, by simp [fillFirstBatch]⟩
  | cons obj rest ih =>
      unfold fillFirstBatch
      split
      · exact ⟨[], by simp, rfl, rfl⟩
      · split
        · exact ⟨[], by simp, rfl, rfl⟩
        · rename_i fits
          -- the result fit: it joins the batch and the loop goes on
          obtain ⟨taken, first, bounded, rest_eq⟩ := ih (batch ++ [obj])
          refine ⟨obj :: taken, by simp [first], ?_, by simp [rest_eq]⟩
          simp only [Bool.not_eq_true', Bool.not_eq_false] at fits
          simp [fitsFrom, fits, bounded]

/-- A batch that breaks the bound is over the limit before its first offending document ends. -/
theorem limit_lt_bytesUsed_of_fitsFrom {protocol : ReplyProtocol} {batch documents : List BSONObj}
    (overflows : fitsFrom protocol batch documents = false) :
    kMaxBytesToReturnToClientAtOnce < bytesUsed protocol (batch ++ documents) := by
  induction documents generalizing batch with
  | nil => simp [fitsFrom] at overflows
  | cons obj rest ih =>
      simp only [fitsFrom, Bool.and_eq_false_iff] at overflows
      rcases overflows with noSpace | later
      · simp only [haveSpaceForNext, Bool.or_eq_false_iff, beq_eq_false_iff_ne, decide_eq_false_iff_not,
          Nat.not_le] at noSpace
        have grown := bytesUsed_le_append protocol (batch ++ [obj]) rest
        rw [bytesUsed_snoc, List.append_assoc, List.singleton_append] at grown
        omega
      · have overLimit := ih later
        rwa [List.append_assoc, List.singleton_append] at overLimit

/-- The buffer and the reply grow by the same elements: what the buffer held before the first
document and the reply's own fields are the only difference. -/
theorem bytesUsed_add_objsize_cursorReply (protocol : ReplyProtocol) (firstBatch : List BSONObj)
    (cursorId : Int64) (ns : String) :
    bytesUsed protocol firstBatch + (cursorReply [] cursorId ns).objsize =
      (cursorReply firstBatch cursorId ns).objsize + bytesUsed protocol [] := by
  simp only [cursorReply, bytesUsed, batchElements, objsize_eq, elementsBytes_cons, elementsBytes_nil,
    elementBytes, Value.bytes_object, Value.bytes_array, length_frame, List.length_append,
    List.length_cons, List.length_nil]
  omega

theorem bytesUsed_single (protocol : ReplyProtocol) (doc : BSONObj) :
    bytesUsed protocol [doc] = bytesUsed protocol [] + 3 + doc.objsize := by
  have first := bytesUsed_snoc protocol [] doc
  have nameLength : (utf8 (toString ([] : List BSONObj).length)).length = 1 := by decide
  rw [List.nil_append, nameLength] at first
  rw [first]

/-- Two documents respect the bound when the second fits beside the first. -/
theorem respectsBatchBound_pair (protocol : ReplyProtocol) (first second : BSONObj) :
    respectsBatchBound protocol [first, second] =
      decide (bytesUsed protocol [] + 3 + first.objsize + second.objsize ≤
        kMaxBytesToReturnToClientAtOnce) := by
  simp [respectsBatchBound, fitsFrom, haveSpaceForNext, bytesUsed_single]

/-- The coalesced reply holds every document; when the ordinary path's bound does not admit them
all, and the reply buffer holds no more before the first document than the empty reply's size,
the reply is over the user limit while the ordinary path leaves documents for `getMore`. -/
theorem coalescedReply_exceeds_batchBound (protocol : ReplyProtocol) (ns : String)
    (documents : List BSONObj) (overflows : respectsBatchBound protocol documents = false)
    (effectiveBatchSize : Option Nat)
    (shortHeader : bytesUsed protocol [] ≤ (cursorReply [] 0 ns).objsize) :
    coalescedFindReply ns (.ok documents) = some (cursorReply documents 0 ns) ∧
      BSONObjMaxUserSize < (cursorReply documents 0 ns).objsize ∧
      (fillFirstBatch protocol effectiveBatchSize [] documents).2 ≠ [] := by
  refine ⟨rfl, ?_, ?_⟩
  · have overLimit := limit_lt_bytesUsed_of_fitsFrom overflows
    have grown := bytesUsed_add_objsize_cursorReply protocol documents 0 ns
    rw [List.nil_append] at overLimit
    calc BSONObjMaxUserSize
        = kMaxBytesToReturnToClientAtOnce := rfl
      _ < bytesUsed protocol documents := overLimit
      _ ≤ (cursorReply documents 0 ns).objsize := by omega
  · -- the ordinary path keeps to the bound, so it cannot have taken every document
    intro drained
    obtain ⟨taken, _, bounded, all⟩ := fillFirstBatch_spec protocol effectiveBatchSize [] documents
    rw [drained, List.append_nil] at all
    rw [respectsBatchBound, ← all, bounded] at overflows
    cases overflows

/-- `find` takes the coalesced branch only on `config.chunks`, whose empty reply is at least the
reply buffer before the first document under either protocol. -/
theorem bytesUsed_nil_le_cursorReply_configChunks (protocol : ReplyProtocol) :
    bytesUsed protocol [] ≤ (cursorReply [] 0 "config.chunks").objsize := by
  cases protocol <;> decide

/-- A document of one binary field of `size` zero bytes. -/
def binaryDocument (size : Nat) : BSONObj :=
  [("data", .scalar (.binData 0 (List.replicate size 0)))]

theorem objsize_binaryDocument (size : Nat) : (binaryDocument size).objsize = size + 16 := by
  have nameLength : (cstring "data").length = 5 := by decide
  simp only [binaryDocument, objsize_eq, elementsBytes_cons, elementsBytes_nil, elementBytes,
    Value.bytes_scalar, Scalar.bytes, nameLength, List.length_append, List.length_cons,
    LittleEndian.length_toBytes, List.length_replicate, List.length_nil]
  omega

theorem coalescedReply_exceeds_batchBound_twoLargeDocuments :
    respectsBatchBound .opQuery
        [binaryDocument (9 * 1024 * 1024), binaryDocument (9 * 1024 * 1024)] = false ∧
      bytesUsed .opQuery [] ≤ (cursorReply [] 0 "config.chunks").objsize ∧
      (coalescedFindReply "config.chunks"
          (.ok [binaryDocument (9 * 1024 * 1024), binaryDocument (9 * 1024 * 1024)]) =
        some (cursorReply [binaryDocument (9 * 1024 * 1024), binaryDocument (9 * 1024 * 1024)] 0
          "config.chunks") ∧
      BSONObjMaxUserSize < (cursorReply [binaryDocument (9 * 1024 * 1024),
          binaryDocument (9 * 1024 * 1024)] 0 "config.chunks").objsize ∧
      (fillFirstBatch .opQuery none [] [binaryDocument (9 * 1024 * 1024),
          binaryDocument (9 * 1024 * 1024)]).2 ≠ []) := by
  have overflows : respectsBatchBound .opQuery [binaryDocument (9 * 1024 * 1024),
      binaryDocument (9 * 1024 * 1024)] = false := by
    rw [respectsBatchBound_pair, objsize_binaryDocument]
    decide
  have shortHeader := bytesUsed_nil_le_cursorReply_configChunks .opQuery
  exact ⟨overflows, shortHeader,
    coalescedReply_exceeds_batchBound .opQuery "config.chunks" _ overflows none shortHeader⟩

end FastMongo.Find

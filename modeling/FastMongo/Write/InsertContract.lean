import FastMongo.Write.Inserts
import FastMongo.Write.FixDocument

/-!
What `performInserts` guarantees about its results and the documents it commits. The loop
keeps `Reported`: a result is OK exactly when storage committed the prepared document at that
index, and a document rejected by preparation has its status at its own index. The pending
batch holds the next documents in order, so a flush reports them at their own indices.
-/

namespace FastMongo.Write

open FastMongo.Bson FastMongo.Integrity

/-- An error that `handleError` records and goes on from: neither an interruption nor a
stale-sharding error. -/
def Ordinary (status : Status) : Prop :=
  status.code.isInterruption = false ∧ status.code.isStaleShardingError = false

instance (status : Status) : Decidable (Ordinary status) :=
  inferInstanceAs (Decidable (_ ∧ _))

theorem handleError_ordinary {continueOnError : Bool} {ex : Status} (ordinary : Ordinary ex)
    (run : InsertRun) :
    handleError continueOnError ex run =
      ({ run with results := run.results ++ [.error ex] }, continueOnError) := by
  simp [handleError, ordinary.1, ordinary.2]

theorem getElem?_append_singleton {α : Type} (items : List α) (item : α) (k : Nat) :
    (items ++ [item])[k]? =
      if k < items.length then items[k]? else if k = items.length then some item else none := by
  by_cases before : k < items.length
  · simp [before, List.getElem?_append_left before]
  · rw [if_neg before, List.getElem?_append_right (Nat.le_of_not_lt before)]
    by_cases at_end : k = items.length
    · simp [at_end]
    · rw [if_neg at_end]
      obtain ⟨offset, beyond⟩ : ∃ offset, k - items.length = offset + 1 :=
        ⟨k - items.length - 1, by omega⟩
      simp [beyond]

theorem lt_length_of_getElem? {α : Type} {items : List α} {k : Nat} {item : α}
    (found : items[k]? = some item) : k < items.length := by
  by_contra beyond
  rw [List.getElem?_eq_none (Nat.le_of_not_lt beyond)] at found
  cases found

/-- What a read of the list grown by one item finds: an old item, or the new one at the end. -/
theorem getElem?_append_singleton_eq_some {α : Type} {items : List α} {item found : α} {k : Nat}
    (read : (items ++ [item])[k]? = some found) :
    items[k]? = some found ∨ k = items.length ∧ item = found := by
  rw [getElem?_append_singleton] at read
  by_cases before : k < items.length
  · rw [if_pos before] at read
    exact .inl read
  · rw [if_neg before] at read
    by_cases at_end : k = items.length
    · rw [if_pos at_end] at read
      exact .inr ⟨at_end, Option.some.inj read⟩
    · rw [if_neg at_end] at read
      cases read

section Committed

variable (attempt : List Nat → Option Status)

@[simp] theorem handleError_committed (continueOnError : Bool) (ex : Status) (run : InsertRun) :
    (handleError continueOnError ex run).1.committed = run.committed := by
  unfold handleError
  split
  · rfl
  · split <;> rfl

/-- The one-at-a-time loop commits only documents of its batch. -/
theorem insertOneAtATime_committed (continueOnError : Bool) :
    ∀ (batch : List (Nat × BSONObj)) (run : InsertRun),
      ∀ entry ∈ (insertOneAtATime attempt continueOnError batch run).1.committed,
        entry ∈ run.committed ∨ entry ∈ batch
  | [], run => fun entry member => .inl member
  | (position, doc) :: rest, run => by
      intro entry member
      simp only [insertOneAtATime] at member
      cases stored : attempt [position] with
      | none =>
          rw [stored] at member
          rcases insertOneAtATime_committed continueOnError rest _ entry member with old | later
          · rcases List.mem_append.mp old with old | new
            · exact .inl old
            · exact .inr (by simp_all)
          · exact .inr (List.mem_cons_of_mem _ later)
      | some ex =>
          rcases handled : handleError continueOnError ex run with ⟨run₁, canContinue⟩
          have kept : run₁.committed = run.committed := by
            rw [← handleError_committed continueOnError ex run, handled]
          simp only [stored, handled] at member
          cases canContinue with
          | true =>
              simp only [if_true] at member
              rcases insertOneAtATime_committed continueOnError rest run₁ entry member with
                old | later
              · exact .inl (kept ▸ old)
              · exact .inr (List.mem_cons_of_mem _ later)
          | false =>
              simp only [Bool.false_eq_true, if_false] at member
              exact .inl (kept ▸ member)

theorem insertBatchAndHandleErrors_committed (config : InsertConfig)
    (batch : List (Nat × BSONObj)) (run : InsertRun) :
    ∀ entry ∈ (insertBatchAndHandleErrors attempt config batch run).1.committed,
      entry ∈ run.committed ∨ entry ∈ batch := by
  intro entry member
  unfold insertBatchAndHandleErrors at member
  split at member
  · exact .inl member
  split at member
  · split at member
    · exact List.mem_append.mp member
    · exact insertOneAtATime_committed attempt _ batch run entry member
  · exact insertOneAtATime_committed attempt _ batch run entry member

/-- Every document a run has committed satisfies `good`. -/
def AllCommitted (good : BSONObj → Prop) (run : InsertRun) : Prop :=
  ∀ entry ∈ run.committed, good entry.2

/-- A flush of good documents keeps every committed document good. -/
theorem AllCommitted.flush {good : BSONObj → Prop} (config : InsertConfig)
    {batch : List (Nat × BSONObj)} {run : InsertRun} (committedGood : AllCommitted good run)
    (batchGood : ∀ entry ∈ batch, good entry.2) :
    AllCommitted good (insertBatchAndHandleErrors attempt config batch run).1 := by
  intro entry member
  rcases insertBatchAndHandleErrors_committed attempt config batch run entry member with
    old | new
  · exact committedGood entry old
  · exact batchGood entry new

/-- Whatever storage does, every document the insert loop commits satisfies a property that
every document preparation accepts satisfies, when the pending ones do. -/
theorem performInsertsLoop_committed (fix : BSONObj → StatusWith BSONObj) (config : InsertConfig)
    (good : BSONObj → Prop)
    (preparedGood : ∀ doc toInsert, prepareInsert fix doc = .ok toInsert → good toInsert) :
    ∀ (rest : List (BSONObj × Nat)) (batch : List (Nat × BSONObj)) (bytesInBatch : Nat)
      (run : InsertRun), AllCommitted good run → (∀ entry ∈ batch, good entry.2) →
      AllCommitted good (performInsertsLoop attempt fix config rest batch bytesInBatch run)
  | [], _, _, _, committedGood, _ => committedGood
  | (doc, position) :: rest, batch, bytesInBatch, run, committedGood, batchGood => by
      simp only [performInsertsLoop]
      cases preparing : prepareInsert fix doc with
      | ok toInsert =>
          have batchGood' : ∀ entry ∈ batch ++ [(position, toInsert)], good entry.2 := by
            intro entry inside
            rcases List.mem_append.mp inside with pending | added
            · exact batchGood entry pending
            · simp only [List.mem_singleton] at added
              subst added
              exact preparedGood doc toInsert preparing
          simp only
          split
          · exact performInsertsLoop_committed fix config good preparedGood rest _ _ run
              committedGood batchGood'
          · rcases flushedBatch : insertBatchAndHandleErrors attempt config
                (batch ++ [(position, toInsert)]) run with ⟨run₁, canContinue⟩
            have good₁ : AllCommitted good run₁ := by
              have flushed := AllCommitted.flush attempt config committedGood batchGood'
              rwa [flushedBatch] at flushed
            simp only
            split
            · exact performInsertsLoop_committed fix config good preparedGood rest [] 0 run₁ good₁
                (by simp)
            · exact good₁
      | error status =>
          rcases flushedBatch : insertBatchAndHandleErrors attempt config batch run with
            ⟨run₁, canContinue⟩
          have good₁ : AllCommitted good run₁ := by
            have flushed := AllCommitted.flush attempt config committedGood batchGood
            rwa [flushedBatch] at flushed
          simp only
          cases canContinue with
          | false => simpa using good₁
          | true =>
              -- recording the document's error commits nothing
              rcases handled : handleError config.continueOnError status run₁ with ⟨run₂, canContinue⟩
              have good₂ : AllCommitted good run₂ := by
                intro entry member
                have kept := handleError_committed config.continueOnError status run₁
                rw [handled] at kept
                rw [kept] at member
                exact good₁ entry member
              simp only [if_true]
              split
              · exact performInsertsLoop_committed fix config good preparedGood rest [] 0 run₂ good₂
                  (by simp)
              · exact good₂

/-- Whatever storage does, every document an insert command commits satisfies a property that
every document preparation accepts satisfies. -/
theorem performInserts_committed (fix : BSONObj → StatusWith BSONObj) (config : InsertConfig)
    (good : BSONObj → Prop)
    (preparedGood : ∀ doc toInsert, prepareInsert fix doc = .ok toInsert → good toInsert)
    (documents : List BSONObj) : AllCommitted good (performInserts attempt fix config documents) :=
  performInsertsLoop_committed attempt fix config good preparedGood documents.zipIdx [] 0
    InsertRun.init (by simp [AllCommitted, InsertRun.init]) (by simp)

end Committed

section Contract

variable (documents : List BSONObj) (fix : BSONObj → StatusWith BSONObj)

/-- How document `k` comes out of preparation, when there is one. -/
def preparedAt (k : Nat) : Option (StatusWith BSONObj) :=
  documents[k]?.map (prepareInsert fix)

/-- What holds of a run's results however far the loop has gone. -/
structure Reported (run : InsertRun) : Prop where
  noThrow : run.thrown = none
  noStale : run.staleConfig = none
  committedOk : ∀ k doc, (k, doc) ∈ run.committed →
    run.results[k]? = some (.ok ()) ∧ preparedAt documents fix k = some (.ok doc)
  okCommitted : ∀ k, run.results[k]? = some (.ok ()) → ∃ doc, (k, doc) ∈ run.committed
  rejectedReported : ∀ k status, k < run.results.length →
    preparedAt documents fix k = some (.error status) → run.results[k]? = some (.error status)

/-- The pending batch: the documents right after the reported ones, in order, as prepared. -/
def PendingBatch (run : InsertRun) (batch : List (Nat × BSONObj)) : Prop :=
  batch.map Prod.fst = List.range' run.results.length batch.length ∧
    ∀ entry ∈ batch, preparedAt documents fix entry.1 = some (.ok entry.2)

/-- The loop may go on: the run is reported and an ordered insert has had no error. -/
structure Going (continueOnError : Bool) (run : InsertRun) : Prop where
  reported : Reported documents fix run
  orderedOk : continueOnError = false → ∀ result ∈ run.results, result = .ok ()

/-- An ordered insert stopped: its last result is its first error. -/
structure Stopped (run : InsertRun) : Prop where
  reported : Reported documents fix run
  lastError : ∃ kept status, run.results = kept ++ [.error status] ∧
    ∀ result ∈ kept, result = .ok ()

/-- What a flush of `count` pending documents leaves: the loop may go on with each of them
reported, or an ordered insert stopped at an error among them. -/
def FlushOutcome (continueOnError : Bool) (run run' : InsertRun) (count : Nat)
    (canContinue : Bool) : Prop :=
  (canContinue = true ∧ Going documents fix continueOnError run' ∧
    run'.results.length = run.results.length + count) ∨
  (canContinue = false ∧ continueOnError = false ∧ Stopped documents fix run' ∧
    run'.results.length ≤ run.results.length + count)

/-- Where a whole insert command ends: every document reported, or an ordered insert stopped at
its first error. -/
def Finished (continueOnError : Bool) (run : InsertRun) : Prop :=
  (Going documents fix continueOnError run ∧ run.results.length = documents.length) ∨
  (continueOnError = false ∧ Stopped documents fix run ∧ run.results.length ≤ documents.length)

variable {documents fix}

/-- Committing the next pending document keeps the run reported. -/
theorem Reported.appendOk {run : InsertRun} (reported : Reported documents fix run)
    {position : Nat} {doc : BSONObj} (next : position = run.results.length)
    (prepared : preparedAt documents fix position = some (.ok doc)) :
    Reported documents fix
      { run with results := run.results ++ [.ok ()], committed := run.committed ++ [(position, doc)] } where
  noThrow := reported.noThrow
  noStale := reported.noStale
  committedOk := by
    intro k entry member
    rcases List.mem_append.mp member with old | new
    · obtain ⟨ok, preparedOld⟩ := reported.committedOk k entry old
      refine ⟨?_, preparedOld⟩
      rw [getElem?_append_singleton, if_pos (lt_length_of_getElem? ok), ok]
    · simp only [List.mem_singleton, Prod.mk.injEq] at new
      obtain ⟨rfl, rfl⟩ := new
      refine ⟨?_, prepared⟩
      simp [next]
  okCommitted := by
    intro k ok
    rcases getElem?_append_singleton_eq_some ok with old | ⟨at_end, _⟩
    · obtain ⟨entry, member⟩ := reported.okCommitted k old
      exact ⟨entry, List.mem_append_left _ member⟩
    · exact ⟨doc, List.mem_append_right _ (by simp [at_end, next])⟩
  rejectedReported := by
    intro k status bound rejected
    rw [getElem?_append_singleton]
    by_cases before : k < run.results.length
    · rw [if_pos before]
      exact reported.rejectedReported k status before rejected
    · have at_end : k = position := by simp at bound; omega
      rw [at_end, prepared] at rejected
      cases rejected

/-- Recording the error of the next document keeps the run reported, when that document was
either prepared and then refused by storage, or rejected by preparation with this status. -/
theorem Reported.appendError {run : InsertRun} (reported : Reported documents fix run)
    {position : Nat} {status : Status} (next : position = run.results.length)
    (prepared : (∃ doc, preparedAt documents fix position = some (.ok doc)) ∨
      preparedAt documents fix position = some (.error status)) :
    Reported documents fix { run with results := run.results ++ [.error status] } where
  noThrow := reported.noThrow
  noStale := reported.noStale
  committedOk := by
    intro k entry member
    obtain ⟨ok, preparedOld⟩ := reported.committedOk k entry member
    refine ⟨?_, preparedOld⟩
    rw [getElem?_append_singleton, if_pos (lt_length_of_getElem? ok), ok]
  okCommitted := by
    intro k ok
    rcases getElem?_append_singleton_eq_some ok with old | ⟨_, errorIsOk⟩
    · exact reported.okCommitted k old
    · cases errorIsOk
  rejectedReported := by
    intro k other bound rejected
    rw [getElem?_append_singleton]
    by_cases before : k < run.results.length
    · rw [if_pos before]
      exact reported.rejectedReported k other before rejected
    · have at_end : k = position := by simp at bound; omega
      rw [at_end] at rejected
      rcases prepared with ⟨doc, preparedOk⟩ | preparedError
      · rw [preparedOk] at rejected
        cases rejected
      · rw [preparedError] at rejected
        simp only [Option.some.injEq, Except.error.injEq] at rejected
        simp [at_end, next, rejected]

theorem PendingBatch.cons {run : InsertRun} {position : Nat} {doc : BSONObj}
    {rest : List (Nat × BSONObj)} (pending : PendingBatch documents fix run ((position, doc) :: rest)) :
    position = run.results.length ∧ preparedAt documents fix position = some (.ok doc) ∧
      ∀ results : List SingleResult, results.length = run.results.length + 1 →
        PendingBatch documents fix { run with results := results } rest := by
  obtain ⟨positions, prepared⟩ := pending
  simp only [List.map_cons, List.length_cons, List.range'_succ, List.cons.injEq] at positions
  refine ⟨positions.1, prepared _ List.mem_cons_self, ?_⟩
  intro results longer
  exact ⟨by rw [positions.2, longer], fun entry member => prepared entry (List.mem_cons_of_mem _ member)⟩

theorem PendingBatch.snoc {run : InsertRun} {batch : List (Nat × BSONObj)}
    (pending : PendingBatch documents fix run batch) {doc : BSONObj}
    (prepared : preparedAt documents fix (run.results.length + batch.length) = some (.ok doc)) :
    PendingBatch documents fix run (batch ++ [(run.results.length + batch.length, doc)]) := by
  obtain ⟨positions, preparedAll⟩ := pending
  refine ⟨?_, ?_⟩
  · rw [List.map_append, positions, List.length_append, List.length_singleton,
      List.range'_concat]
    simp
  · intro entry member
    rcases List.mem_append.mp member with old | new
    · exact preparedAll entry old
    · simp only [List.mem_singleton] at new
      subst new
      exact prepared

/-- A flush that first reported one document at the next index. -/
theorem FlushOutcome.shift {continueOnError : Bool} {run run₁ run' : InsertRun} {count : Nat}
    {canContinue : Bool} (longer : run₁.results.length = run.results.length + 1)
    (outcome : FlushOutcome documents fix continueOnError run₁ run' count canContinue) :
    FlushOutcome documents fix continueOnError run run' (count + 1) canContinue := by
  rcases outcome with ⟨goingOn, going, reportedAll⟩ | ⟨stop, ordered, stopped, reportedSome⟩
  · exact .inl ⟨goingOn, going, by omega⟩
  · exact .inr ⟨stop, ordered, stopped, by omega⟩

/-- An ordered insert that records an error stops there. -/
theorem Going.stop {run : InsertRun} (going : Going documents fix false run) {status : Status}
    (reported : Reported documents fix { run with results := run.results ++ [.error status] }) :
    Stopped documents fix { run with results := run.results ++ [.error status] } :=
  ⟨reported, run.results, status, rfl, going.orderedOk rfl⟩

theorem fixedForInsert_error {docToInsert : BSONObj} {status : Status}
    (rejected : fixedForInsert fix docToInsert = .error status) : fix docToInsert = .error status := by
  unfold fixedForInsert at rejected
  split at rejected
  · rename_i failed
    rw [failed, rejected]
  · cases rejected

/-- A document rejected by preparation fails verification or `fixDocumentForInsert`. -/
theorem prepareInsert_error {doc : BSONObj} {status : Status}
    (rejected : prepareInsert fix doc = .error status) :
    verifyDocumentIntegrity doc = .error status ∨ ∃ docToInsert, fix docToInsert = .error status := by
  unfold prepareInsert at rejected
  split at rejected
  · split at rejected
    · exact .inr ⟨_, fixedForInsert_error rejected⟩
    · rename_i failed
      simp only [Except.error.injEq] at rejected
      exact .inl (by rw [failed, rejected])
  · exact .inr ⟨_, fixedForInsert_error rejected⟩

/-- A document that fails verification is rejected by preparation with that status. -/
theorem prepareInsert_of_verify_error {doc : BSONObj} {status : Status}
    (failed : verifyDocumentIntegrity doc = .error status) : prepareInsert fix doc = .error status := by
  have present : doc.hasField kDocHashFieldName = true := by
    by_contra absent
    have clean : doc.hasField kDocHashFieldName = false := by simpa using absent
    have missing : extractDocumentHash doc = none := by
      rw [extractDocumentHash, (BSONObj.getField_eq_none).mpr]
      intro element member named
      have found : doc.hasField kDocHashFieldName = true :=
        BSONObj.hasField_iff.mpr ⟨element, member, named⟩
      rw [clean] at found
      cases found
    simp [verifyDocumentIntegrity, missing, clean] at failed
  simp [prepareInsert, present, failed]

variable (attempt : List Nat → Option Status)

section Storage

variable {attempt}
variable (ordinaryStorage : ∀ positions status, attempt positions = some status → Ordinary status)
include ordinaryStorage

/-- The one-at-a-time loop reports each pending document at its index, committed or with its
storage error, until an ordered insert meets its first error. -/
theorem insertOneAtATime_outcome {continueOnError : Bool} :
    ∀ {batch : List (Nat × BSONObj)} {run : InsertRun},
      Going documents fix continueOnError run → PendingBatch documents fix run batch →
      FlushOutcome documents fix continueOnError run (insertOneAtATime attempt continueOnError batch run).1
        batch.length (insertOneAtATime attempt continueOnError batch run).2
  | [], run, going, _ => .inl ⟨rfl, going, rfl⟩
  | (position, doc) :: rest, run, going, pending => by
      obtain ⟨next, prepared, pendingRest⟩ := pending.cons
      cases stored : attempt [position] with
      | none =>
          -- committed: the rest of the batch goes on from the next index
          have reported := going.reported.appendOk next prepared
          have going' : Going documents fix continueOnError
              { run with
                results := run.results ++ [.ok ()]
                committed := run.committed ++ [(position, doc)] } :=
            ⟨reported, fun ordered result member => by
              rcases List.mem_append.mp member with old | new
              · exact going.orderedOk ordered result old
              · simpa using new⟩
          have outcome := insertOneAtATime_outcome going'
            (pendingRest (run.results ++ [.ok ()]) (by simp))
          simp only [insertOneAtATime, stored, List.length_cons]
          exact outcome.shift (by simp)
      | some ex =>
          have ordinary := ordinaryStorage [position] ex stored
          have reported : Reported documents fix { run with results := run.results ++ [.error ex] } :=
            going.reported.appendError next (.inl ⟨doc, prepared⟩)
          cases continueOnError with
          | true =>
              have going' : Going documents fix true
                  { run with results := run.results ++ [.error ex] } :=
                ⟨reported, fun ordered => by cases ordered⟩
              have outcome := insertOneAtATime_outcome going'
                (pendingRest (run.results ++ [.error ex]) (by simp))
              simp only [insertOneAtATime, stored, handleError_ordinary ordinary, if_true,
                List.length_cons]
              exact outcome.shift (by simp)
          | false =>
              simp only [insertOneAtATime, stored, handleError_ordinary ordinary,
                Bool.false_eq_true, if_false]
              refine .inr ⟨rfl, rfl, going.stop reported, ?_⟩
              simp

omit ordinaryStorage in
theorem Reported.appendBatch {run : InsertRun} (reported : Reported documents fix run) :
    ∀ {batch : List (Nat × BSONObj)}, PendingBatch documents fix run batch →
      Reported documents fix
        { run with
          results := run.results ++ batch.map fun _ => .ok ()
          committed := run.committed ++ batch }
  | [], _ => by simpa using reported
  | (position, doc) :: rest, pending => by
      obtain ⟨next, prepared, pendingRest⟩ := pending.cons
      have first := reported.appendOk next prepared
      have all := first.appendBatch (pendingRest (run.results ++ [.ok ()]) (by simp))
      simpa [List.append_assoc] using all

/-- `insertBatchAndHandleErrors` reports each pending document at its index, however the
combined insert ends. -/
theorem insertBatchAndHandleErrors_outcome (config : InsertConfig)
    {batch : List (Nat × BSONObj)} {run : InsertRun}
    (going : Going documents fix config.continueOnError run)
    (pending : PendingBatch documents fix run batch) :
    FlushOutcome documents fix config.continueOnError run
      (insertBatchAndHandleErrors attempt config batch run).1 batch.length
      (insertBatchAndHandleErrors attempt config batch run).2 := by
  unfold insertBatchAndHandleErrors
  by_cases empty : batch.isEmpty
  · rw [List.isEmpty_iff.mp empty] at pending ⊢
    exact .inl ⟨rfl, going, rfl⟩
  · simp only [empty, Bool.false_eq_true, if_false]
    split
    · split
      · -- the combined insert committed every document of the batch
        refine .inl ⟨rfl, ⟨going.reported.appendBatch pending, ?_⟩, by simp⟩
        intro ordered result member
        rcases List.mem_append.mp member with old | new
        · exact going.orderedOk ordered result old
        · obtain ⟨_, _, same⟩ := List.mem_map.mp new
          exact same.symm
      · exact insertOneAtATime_outcome ordinaryStorage going pending
    · exact insertOneAtATime_outcome ordinaryStorage going pending

variable (ordinaryFix : ∀ doc status, fix doc = .error status → Ordinary status)
include ordinaryFix

omit ordinaryStorage in
/-- Every status preparation reports is one `handleError` records and goes on from. -/
theorem prepareInsert_ordinary {doc : BSONObj} {status : Status}
    (rejected : prepareInsert fix doc = .error status) : Ordinary status := by
  rcases prepareInsert_error rejected with failed | ⟨docToInsert, fixFailed⟩
  · rcases verifyDocumentIntegrity_error_code failed with code | code <;>
      simp [Ordinary, code, ErrorCode.isInterruption, ErrorCode.isStaleShardingError]
  · exact ordinaryFix docToInsert status fixFailed

/-- The loop of `performInserts` over the documents after `taken` ends `Finished`: the pending
batch always holds the documents right after the reported ones, and is flushed at the latest
at the last document. -/
theorem performInsertsLoop_finished (config : InsertConfig) :
    ∀ (rest taken : List BSONObj) (batch : List (Nat × BSONObj)) (bytesInBatch : Nat)
      (run : InsertRun), documents = taken ++ rest →
      taken.length = run.results.length + batch.length →
      Going documents fix config.continueOnError run → PendingBatch documents fix run batch →
      (batch ≠ [] → rest ≠ []) →
      Finished documents fix config.continueOnError
        (performInsertsLoop attempt fix config (rest.zipIdx taken.length) batch bytesInBatch run)
  | [], taken, batch, _, run, split, count, going, _, flushed => by
      have empty : batch = [] := by
        by_contra nonempty
        exact flushed nonempty rfl
      subst empty
      simp only [List.zipIdx_nil, performInsertsLoop]
      refine .inl ⟨going, ?_⟩
      simp only [List.append_nil] at split
      simp [split, count]
  | doc :: rest, taken, batch, bytesInBatch, run, split, count, going, pending, _ => by
      have prepared : preparedAt documents fix taken.length = some (prepareInsert fix doc) := by
        simp [preparedAt, split]
      have split' : documents = (taken ++ [doc]) ++ rest := by simp [split]
      have within : taken.length + 1 ≤ documents.length := by simp [split]
      simp only [List.zipIdx_cons, performInsertsLoop]
      cases preparing : prepareInsert fix doc with
      | ok toInsert =>
          rw [preparing, count] at prepared
          have pending' := pending.snoc prepared
          rw [← count] at pending'
          simp only
          split
          · -- the batch is not full: take the next document
            rename_i roomLeft
            have more : rest ≠ [] := by
              intro none
              simp [none] at roomLeft
            have next := performInsertsLoop_finished config rest (taken ++ [doc])
              (batch ++ [(taken.length, toInsert)]) (bytesInBatch + toInsert.objsize) run split'
              (by simp only [List.length_append, List.length_singleton, count]; omega) going
              pending' (fun _ => more)
            simpa using next
          · -- the batch is flushed
            rcases flushedBatch : insertBatchAndHandleErrors attempt config
                (batch ++ [(taken.length, toInsert)]) run with ⟨run₁, canContinue⟩
            have outcome := insertBatchAndHandleErrors_outcome ordinaryStorage config going pending'
            rw [flushedBatch] at outcome
            dsimp only at outcome
            simp only
            rcases outcome with ⟨goingOn, going₁, reportedAll⟩ | ⟨stop, ordered, stopped, reportedSome⟩
            · subst goingOn
              have next := performInsertsLoop_finished config rest (taken ++ [doc]) [] 0 run₁ split'
                (by simp only [List.length_append, List.length_singleton, List.length_nil] at reportedAll ⊢
                    omega)
                going₁ ⟨by simp, by simp⟩ (fun nonempty => absurd rfl nonempty)
              simpa using next
            · subst stop
              simp only [Bool.false_eq_true, if_false]
              refine .inr ⟨ordered, stopped, ?_⟩
              simp only [List.length_append, List.length_singleton] at reportedSome
              omega
      | error status =>
          rw [preparing] at prepared
          have ordinary := prepareInsert_ordinary ordinaryFix preparing
          rcases flushedBatch : insertBatchAndHandleErrors attempt config batch run with
            ⟨run₁, canContinue⟩
          have outcome := insertBatchAndHandleErrors_outcome ordinaryStorage config going pending
          rw [flushedBatch] at outcome
          dsimp only at outcome
          simp only
          rcases outcome with ⟨goingOn, going₁, reportedAll⟩ | ⟨stop, ordered, stopped, reportedSome⟩
          · -- the pending documents are reported; now this document's error
            subst goingOn
            have next : taken.length = run₁.results.length := by omega
            have reported : Reported documents fix
                { run₁ with results := run₁.results ++ [.error status] } :=
              going₁.reported.appendError next (.inr prepared)
            simp only [handleError_ordinary ordinary, if_true]
            cases ordered : config.continueOnError with
            | true =>
                have going₂ : Going documents fix config.continueOnError
                    { run₁ with results := run₁.results ++ [.error status] } :=
                  ⟨reported, fun orderedInsert => by rw [ordered] at orderedInsert; cases orderedInsert⟩
                have continued := performInsertsLoop_finished config rest (taken ++ [doc]) [] 0 _ split'
                  (by simp [next]) going₂ ⟨by simp, by simp⟩ (fun nonempty => absurd rfl nonempty)
                simpa [ordered] using continued
            | false =>
                simp only [Bool.false_eq_true, if_false]
                rw [ordered] at going₁
                refine .inr ⟨rfl, going₁.stop reported, ?_⟩
                simp only [List.length_append, List.length_singleton]
                omega
          · subst stop
            simp only [Bool.false_eq_true, if_false]
            exact .inr ⟨ordered, stopped, by omega⟩

/-- `performInserts` ends `Finished`. -/
theorem performInserts_finished (config : InsertConfig) :
    Finished documents fix config.continueOnError (performInserts attempt fix config documents) := by
  have initial : Going documents fix config.continueOnError InsertRun.init :=
    ⟨⟨rfl, rfl, by simp [InsertRun.init], by simp [InsertRun.init], by simp [InsertRun.init]⟩,
      by simp [InsertRun.init]⟩
  have finished := performInsertsLoop_finished ordinaryStorage ordinaryFix config documents [] []
    0 InsertRun.init (by simp) (by simp [InsertRun.init]) initial ⟨by simp, by simp⟩
    (fun nonempty => absurd rfl nonempty)
  simpa [performInserts] using finished

end Storage

theorem Finished.reported {continueOnError : Bool} {run : InsertRun}
    (finished : Finished documents fix continueOnError run) : Reported documents fix run := by
  rcases finished with ⟨going, _⟩ | ⟨_, stopped, _⟩
  · exact going.reported
  · exact stopped.reported

/-- In an ordered insert every result before a committed document is OK. -/
theorem Finished.ok_before_committed {run : InsertRun}
    (finished : Finished documents fix false run) {k j : Nat} {doc : BSONObj}
    (member : (k, doc) ∈ run.committed) (before : j < k) : run.results[j]? = some (.ok ()) := by
  have committedOk := (finished.reported.committedOk k doc member).1
  have bound := lt_length_of_getElem? committedOk
  rcases finished with ⟨going, _⟩ | ⟨_, stopped, _⟩
  · have present : run.results[j]? = some run.results[j] := List.getElem?_eq_getElem (by omega)
    rw [present, going.orderedOk rfl _ (List.getElem_mem _)]
  · obtain ⟨kept, status, shape, keptOk⟩ := stopped.lastError
    have notLast : k < kept.length := by
      rw [shape] at committedOk
      rcases getElem?_append_singleton_eq_some committedOk with old | ⟨_, errorIsOk⟩
      · exact lt_length_of_getElem? old
      · cases errorIsOk
    have present : kept[j]? = some kept[j] := List.getElem?_eq_getElem (by omega)
    rw [shape, List.getElem?_append_left (by omega), present, keptOk _ (List.getElem_mem _)]

end Contract

/-- When every storage failure and every `fixDocumentForInsert` error is an ordinary error,
`performInserts` reports one result per document in document order, up to and including the
first error of an ordered insert; the `k`-th result is OK exactly when the `k`-th prepared
document was committed; a document that fails verification is never committed and has its
status at its own index; and an ordered insert commits nothing after a failed document. -/
theorem performInserts_reports_each_document (attempt : List Nat → Option Status)
    (fix : BSONObj → StatusWith BSONObj) (config : InsertConfig) (documents : List BSONObj)
    (ordinaryStorage : ∀ positions status, attempt positions = some status → Ordinary status)
    (ordinaryFix : ∀ doc status, fix doc = .error status → Ordinary status) :
    let run := performInserts attempt fix config documents
    run.thrown = none ∧ run.staleConfig = none ∧ run.results.length ≤ documents.length ∧
    (run.results.length = documents.length ∨
      config.continueOnError = false ∧ ∃ kept status, run.results = kept ++ [.error status] ∧
        ∀ result ∈ kept, result = .ok ()) ∧
    (∀ k, run.results[k]? = some (.ok ()) ↔ ∃ doc, (k, doc) ∈ run.committed) ∧
    (∀ k doc, (k, doc) ∈ run.committed →
      ∃ original, documents[k]? = some original ∧ prepareInsert fix original = .ok doc) ∧
    (∀ k original status, k < run.results.length → documents[k]? = some original →
      verifyDocumentIntegrity original = .error status →
      run.results[k]? = some (.error status) ∧ ∀ doc, (k, doc) ∉ run.committed) ∧
    (config.continueOnError = false → ∀ k doc j, (k, doc) ∈ run.committed → j < k →
      run.results[j]? = some (.ok ())) := by
  intro run
  have finished : Finished documents fix config.continueOnError run :=
    performInserts_finished ordinaryStorage ordinaryFix config
  have reported := finished.reported
  refine ⟨reported.noThrow, reported.noStale, ?_, ?_, ?_, ?_, ?_, ?_⟩
  · rcases finished with ⟨_, all⟩ | ⟨_, _, some⟩ <;> omega
  · rcases finished with ⟨_, all⟩ | ⟨ordered, stopped, _⟩
    · exact .inl all
    · exact .inr ⟨ordered, stopped.lastError⟩
  · intro k
    constructor
    · exact reported.okCommitted k
    · rintro ⟨doc, member⟩
      exact (reported.committedOk k doc member).1
  · intro k doc member
    have prepared := (reported.committedOk k doc member).2
    simp only [preparedAt, Option.map_eq_some_iff] at prepared
    exact prepared
  · intro k original status bound found failed
    have rejected : preparedAt documents fix k = some (.error status) := by
      simp [preparedAt, found, prepareInsert_of_verify_error failed]
    refine ⟨reported.rejectedReported k status bound rejected, ?_⟩
    intro doc member
    rw [(reported.committedOk k doc member).2] at rejected
    cases rejected
  · intro ordered k doc j member before
    rw [ordered] at finished
    exact finished.ok_before_committed member before

/-- `fixDocumentForInsert` fails with ordinary errors when the embedded check does. -/
theorem fixDocumentForInsert_ordinary {newOid : Vector UInt8 12} {globalTimestamps : Nat → UInt64}
    {storageValidEmbedded : BSONObj → Except Status Unit}
    (embeddedOrdinary : ∀ embedded status, storageValidEmbedded embedded = .error status →
      Ordinary status) (doc : BSONObj) (status : Status)
    (failed : fixDocumentForInsert newOid globalTimestamps storageValidEmbedded doc = .error status) :
    Ordinary status := by
  rcases fixDocumentForInsert_error failed with badValue | ⟨embedded, refused⟩
  · unfold Ordinary
    rw [badValue]
    decide
  · exact embeddedOrdinary embedded status refused

/-- A storage layer on which the insert of the document at index 1 fails with a duplicate key. -/
def duplicateAtOne (positions : List Nat) : Option Status :=
  if positions = [1] then some ⟨.duplicateKey, "E11000 duplicate key error"⟩ else none

/-- An unordered insert with the server's batch limits. -/
def unorderedInsert : InsertConfig := ⟨64, 256000, false, true⟩

/-- Two plain documents. -/
def twoDocuments : List BSONObj := [[("a", .scalar (.numberInt 1))], [("a", .scalar (.numberInt 2))]]

theorem performInserts_reports_each_document_twoDocuments :
    let run := performInserts duplicateAtOne
      (fixDocumentForInsert (Vector.replicate 12 0) (fun _ => 0) (fun _ => .ok ()))
      unorderedInsert twoDocuments
    run.thrown = none ∧ run.staleConfig = none ∧ run.results.length ≤ twoDocuments.length ∧
    (run.results.length = twoDocuments.length ∨
      unorderedInsert.continueOnError = false ∧ ∃ kept status,
        run.results = kept ++ [.error status] ∧ ∀ result ∈ kept, result = .ok ()) ∧
    (∀ k, run.results[k]? = some (.ok ()) ↔ ∃ doc, (k, doc) ∈ run.committed) ∧
    (∀ k doc, (k, doc) ∈ run.committed →
      ∃ original, twoDocuments[k]? = some original ∧
        prepareInsert (fixDocumentForInsert (Vector.replicate 12 0) (fun _ => 0) (fun _ => .ok ()))
          original = .ok doc) ∧
    (∀ k original status, k < run.results.length → twoDocuments[k]? = some original →
      verifyDocumentIntegrity original = .error status →
      run.results[k]? = some (.error status) ∧ ∀ doc, (k, doc) ∉ run.committed) ∧
    (unorderedInsert.continueOnError = false → ∀ k doc j, (k, doc) ∈ run.committed → j < k →
      run.results[j]? = some (.ok ())) :=
  performInserts_reports_each_document duplicateAtOne
    (fixDocumentForInsert (Vector.replicate 12 0) (fun _ => 0) (fun _ => .ok ())) unorderedInsert twoDocuments
    (by
      intro positions status failed
      unfold duplicateAtOne at failed
      split at failed
      · simp only [Option.some.injEq] at failed
        subst failed
        decide
      · cases failed)
    (fixDocumentForInsert_ordinary fun _ _ refused => by cases refused)

/-- A storage layer on which every insert finds the shard version stale. -/
def staleStorage (_ : List Nat) : Option Status :=
  some ⟨.sendStaleConfig, "shard version not ok"⟩

/-- An unordered insert of one document whose insert meets a stale shard version: the document
is tried and gets no result; the command ends with the stale config exception only. -/
theorem staleConfig_leaves_document_unreported :
    let run := performInserts staleStorage (fun _ => .ok []) unorderedInsert
      [[("a", .scalar (.numberInt 1))]]
    run.results = [] ∧ run.staleConfig = some ⟨.sendStaleConfig, "shard version not ok"⟩ ∧
      run.committed = [] :=
  ⟨rfl, rfl, rfl⟩

end FastMongo.Write

import FastMongo.Bson.Value
import FastMongo.Coalescer.Invariant

/-!
The coalesced branch of `FindCmd::run` (`db/commands/find_cmd.cpp`). On a config server with
coalescing enabled, a find on `config.chunks` takes its version from the filter's
`lastmod.$gt` timestamp and hands `tryCoalesce` the key `nss.ns()` and a `queryFunc` that runs
its own query; an OK result is the reply's first batch, and an error falls through to the
ordinary find path. What a query returns is left to the query system: `execute cmdObj` is the
document list that running the command's own `QueryRequest` yields.
-/

namespace FastMongo.Find

open FastMongo.Bson FastMongo.Coalescer

/-- `serverGlobalParams.clusterRole`. -/
inductive ClusterRole where
  | none | shardServer | configServer
  deriving DecidableEq, Repr

/-- `Command::parseNs`: the database joined with the string in the command's first element, which
`valuestr()` hands to the stream as a C string, so only up to its first NUL; a first element of
another type, or none, gives the database. -/
def parseNs (dbname : String) (cmdObj : BSONObj) : String :=
  match cmdObj with
  | (_, .scalar (.string collection)) :: _ =>
      dbname ++ "." ++ String.ofList (collection.toList.takeWhile (· ≠ Char.ofNat 0))
  | _ => dbname

/-- `requestVersion`: the filter's `lastmod.$gt` when it is a Timestamp, else 0. -/
def requestVersion (cmdObj : BSONObj) : Nat :=
  let filter := cmdObj.getObjectField "filter"
  if filter.isEmpty then 0
  else
    match BSONObj.getField filter "lastmod" with
    | some (_, .object lastmodObj) =>
        match BSONObj.getField lastmodObj "$gt" with
        | some (_, .scalar (.bsonTimestamp timestamp)) => timestamp.toNat
        | _ => 0
    | _ => 0

/-- The test that sends a find into the coalescer. -/
def usesCoalescer (clusterRole : ClusterRole) (enabled : Bool) (dbname : String)
    (cmdObj : BSONObj) : Bool :=
  clusterRole == .configServer && parseNs dbname cmdObj == "config.chunks" && enabled

/-- What the command hands `tryCoalesce`: the key `nss.ns()` and the version. -/
def coalescerRequest (dbname : String) (cmdObj : BSONObj) : Request :=
  ⟨parseNs dbname cmdObj, requestVersion cmdObj⟩

/-- The reply of the coalesced branch: the documents of an OK result as the first batch of a
closed cursor, or nothing, when the command falls through to the ordinary path. -/
def coalescedReply (coalescedResult : StatusWith (List BSONObj)) : Option (List BSONObj) :=
  match coalescedResult with
  | .ok documents => some documents
  | .error _ => none

section Commands

-- Concurrent finds: find `id` runs `commands id` on database `dbname`, and its `queryFunc`
-- ends as `outcomes id`.
variable (config : Config) (dbname : String) (commands : Nat → BSONObj)
  (outcomes : Nat → QueryOutcome BSONObj)

/-- The coalescer driven by the find commands. -/
def Reachable (s : State BSONObj) : Prop :=
  Coalescer.Reachable config (fun id => coalescerRequest dbname (commands id)) outcomes s

/-- A `queryFunc` that returns yields what running the command's own query yields. -/
def RunsOwnQuery (execute : BSONObj → List BSONObj) : Prop :=
  ∀ id documents, outcomes id = .value documents → documents = execute (commands id)

variable {config dbname commands outcomes}

/-- A find answered through the coalesced branch without running its own query gets what the
query of another find on the same namespace returned, and that find's version is within the
gap of its own: nothing ties the two commands' filters, sorts, projections or limits. -/
theorem coalescedReply_from_same_namespace {execute : BSONObj → List BSONObj}
    (ownQuery : RunsOwnQuery commands outcomes execute) {s : State BSONObj}
    (reached : Reachable config dbname commands outcomes s) {id : Nat} {documents : List BSONObj}
    (returned : s.phases id = .returned (.ok documents)) (notRan : s.ranQuery id = false) :
    ∃ leader, documents = execute (commands leader) ∧
      parseNs dbname (commands leader) = parseNs dbname (commands id) ∧
      versionGap (requestVersion (commands id)) (requestVersion (commands leader)) ≤
        config.maxVersionGap := by
  obtain ⟨leader, produced, _, sameNs, close⟩ :=
    (reachable_invariant reached).returnedResult id documents returned notRan
  exact ⟨leader, ownQuery leader documents produced, sameNs, close⟩

end Commands

/-- The filter `ConfigDiffTracker::configDiffQuery` sends for one collection: its chunks with
`lastmod` at or after a timestamp. -/
def chunksSince (collection : String) (since : UInt64) : BSONObj :=
  [("find", .scalar (.string "chunks")),
   ("filter", .object [("ns", .scalar (.string collection)),
     ("lastmod", .object [("$gte", .scalar (.bsonTimestamp since))])])]

/-- Two routing refreshes for different collections, both from timestamp 0. -/
def twoCollections : Nat → BSONObj
  | 0 => chunksSince "db.a" 0
  | _ => chunksSince "db.b" 0

/-- Whatever the query system returns, the refresh for `db.b` can be answered through the
coalesced branch with the result of the query for `db.a`: both have the key `config.chunks`
and version 0, since the filter's bound is written with `$gte`. -/
theorem coalescedReply_other_collection (execute : BSONObj → List BSONObj)
    (differ : execute (twoCollections 0) ≠ execute (twoCollections 1)) :
    usesCoalescer .configServer true "config" (twoCollections 1) = true ∧
    ∃ s, Reachable ⟨1000, 500⟩ "config" twoCollections
        (fun id => .value (execute (twoCollections id))) s ∧
      ∃ documents, s.phases 1 = .returned (.ok documents) ∧
        documents ≠ execute (twoCollections 1) := by
  -- the refresh for db.b joins while the one for db.a queries, and is woken by its result
  obtain ⟨s, reached, served⟩ : ∃ s, Reachable ⟨1000, 500⟩ "config" twoCollections
      (fun id => .value (execute (twoCollections id))) s ∧
      s.phases 1 = .returned (.ok (execute (twoCollections 0))) :=
    exists_reachable_of_run_map _ _ _
      [.call 0, .lock 0, .call 1, .lock 1, .finishQuery 0, .wake 1] (fun s => s.phases 1) rfl
  exact ⟨by decide, s, reached, execute (twoCollections 0), served, differ⟩

/-- The chunk documents of two collections. -/
def chunkDocs : List BSONObj :=
  [[("ns", .scalar (.string "db.a"))], [("ns", .scalar (.string "db.b"))]]

/-- A query system over `chunkDocs` that matches the filter's `ns` by equality. -/
def matchNs (cmdObj : BSONObj) : List BSONObj :=
  chunkDocs.filter fun doc =>
    BSONObj.getField doc "ns" == BSONObj.getField (cmdObj.getObjectField "filter") "ns"

theorem coalescedReply_other_collection_matchNs :
    matchNs (twoCollections 0) ≠ matchNs (twoCollections 1) ∧
    usesCoalescer .configServer true "config" (twoCollections 1) = true ∧
    ∃ s, Reachable ⟨1000, 500⟩ "config" twoCollections
        (fun id => .value (matchNs (twoCollections id))) s ∧
      ∃ documents, s.phases 1 = .returned (.ok documents) ∧
        documents ≠ matchNs (twoCollections 1) := by
  have differ : matchNs (twoCollections 0) ≠ matchNs (twoCollections 1) := by decide
  exact ⟨differ, coalescedReply_other_collection matchNs differ⟩

theorem coalescedReply_from_same_namespace_matchNs :
    ∃ s, Reachable ⟨1000, 500⟩ "config" twoCollections
        (fun id => .value (matchNs (twoCollections id))) s ∧
      s.phases 1 = .returned (.ok (matchNs (twoCollections 0))) ∧ s.ranQuery 1 = false ∧
      ∃ leader, matchNs (twoCollections 0) = matchNs (twoCollections leader) ∧
        parseNs "config" (twoCollections leader) = parseNs "config" (twoCollections 1) ∧
        versionGap (requestVersion (twoCollections 1)) (requestVersion (twoCollections leader)) ≤
          500 := by
  obtain ⟨s, reached, served⟩ := exists_reachable_of_run ⟨1000, 500⟩
    (fun id => coalescerRequest "config" (twoCollections id))
    (fun id => .value (matchNs (twoCollections id)))
    [.call 0, .lock 0, .call 1, .lock 1, .finishQuery 0, .wake 1]
    (fun s => decide (s.phases 1 = .returned (.ok (matchNs (twoCollections 0))) ∧
      s.ranQuery 1 = false)) (by decide)
  obtain ⟨returned, notRan⟩ := of_decide_eq_true served
  have ownQuery : RunsOwnQuery twoCollections (fun id => .value (matchNs (twoCollections id)))
      matchNs := by
    intro id documents produced
    simpa [eq_comm] using produced
  exact ⟨s, reached, returned, notRan,
    coalescedReply_from_same_namespace ownQuery reached returned notRan⟩

end FastMongo.Find

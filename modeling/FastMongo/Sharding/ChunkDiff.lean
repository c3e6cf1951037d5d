import FastMongo.Lib.RangeMap
import Mathlib.Data.List.Nodup
import Mathlib.Logic.Function.Basic

/-!
`ConfigDiffTracker::calculateConfigDiff` of `s/chunk_diff.cpp`: how a router or a shard brings
its cached chunk ranges up to date with the chunks a `configDiffQuery` returned, those whose
version is at or above the cached collection version. The first loop checks each chunk's epoch,
raises the collection version and the version of the chunk's shard, and erases the cached
ranges the chunk overlaps; the second inserts the chunks the tracker keeps, unless a cached
range already lies in one, which returns -1.

The cache is a map keyed by the chunks' min keys (`SCMConfigDiffTracker` of a shard, which keeps
its own chunks) or by their max keys (`CMConfigDiffTracker` of a router, which keeps all), and
`_overlappingRange` finds the keys in `[min, max)` or in `(min, max]` accordingly. Shard key
values are compared as `SimpleBSONObjComparator` compares them: the keys are any linear order.

Over the code, the abstract view: the chunks of a collection tile the shard key range, and the
cache holds the entries of the chunks the tracker keeps. When the chunks that changed since the
cached version all carry versions at or above it, applying the query's answer turns the cache
of the old tiling into the cache of the new one.
-/

namespace FastMongo.Sharding

open RangeMap

/-- `ChunkVersion`: the major and minor versions combined in 64 bits, and the epoch. Its order
operators compare the combined value only. -/
structure ChunkVersion where
  combined : UInt64
  epoch : Vector UInt8 12
  deriving DecidableEq, Repr

/-- `ChunkVersion::hasEqualEpoch`. -/
def ChunkVersion.hasEqualEpoch (v : ChunkVersion) (otherEpoch : Vector UInt8 12) : Bool :=
  v.epoch == otherEpoch

/-- A shard's name. -/
abbrev ShardId := String

/-- A chunk as `ChunkType::fromBSON` returns it: `ChunkRange::fromBSON` rejects a range whose
min is not below its max. -/
structure ChunkType (K : Type) [LinearOrder K] where
  min : K
  max : K
  version : ChunkVersion
  shard : ShardId
  min_lt_max : min < max
  deriving DecidableEq

/-- What a subclass of `ConfigDiffTracker` decides: the chunks it keeps (`isTracked`), whether its
map is indexed by min keys, the entry `rangeFor` makes of a chunk, under the chunk's min or max
key as the map is indexed, and the shard `shardFor` resolves a name to. -/
structure DiffTrackerOps (K V : Type) [LinearOrder K] where
  isTracked : ChunkType K → Bool
  isMinKeyIndexed : Bool
  rangeFor : ChunkType K → K × V
  shardFor : ShardId → ShardId
  rangeFor_key : ∀ chunk, (rangeFor chunk).1 = if isMinKeyIndexed then chunk.min else chunk.max

/-- `CachedChunkInfo`: what a shard's metadata keeps of a chunk under its min key. -/
structure CachedChunkInfo (K : Type) where
  maxKey : K
  version : ChunkVersion
  deriving DecidableEq, Repr

variable {K V : Type} [LinearOrder K]

/-- `SCMConfigDiffTracker` of `db/s/metadata_loader.cpp`: a shard keeps its own chunks, indexed by
min key. -/
def scmConfigDiffTracker (currShard : ShardId) : DiffTrackerOps K (CachedChunkInfo K) where
  isTracked chunk := chunk.shard == currShard
  isMinKeyIndexed := true
  rangeFor chunk := (chunk.min, ⟨chunk.max, chunk.version⟩)
  shardFor name := name
  rangeFor_key _ := rfl

/-- The shard registry as `CMConfigDiffTracker::shardFor` reads it: `getShard` gives the id of the
shard a name resolves to, after a reload if need be, or nothing, where `uassertStatusOK` throws
`ShardNotFound`. -/
structure ShardRegistry where
  getShard : ShardId → Option ShardId

/-- `CMConfigDiffTracker` of `s/chunk_manager.cpp`: a router keeps every chunk, indexed by max key;
the `Chunk` it builds of a chunk is the chunk itself here, and `shardFor` is the shard registry's
lookup. The model is of a registry that resolves every shard name (`resolvesAll`): on a name it
cannot resolve, `shardFor` throws `ShardNotFound` out of `calculateConfigDiff`, which the
`DiffTracker` steps do not model. -/
def cmConfigDiffTracker (registry : ShardRegistry)
    (resolvesAll : ∀ name, (registry.getShard name).isSome) : DiffTrackerOps K (ChunkType K) where
  isTracked _ := true
  isMinKeyIndexed := false
  rangeFor chunk := (chunk.max, chunk)
  shardFor name := (registry.getShard name).get (resolvesAll name)
  rangeFor_key _ := rfl

/-- What `calculateConfigDiff` reads and writes: the ranges (`_currMap`), the collection version
(`_maxVersion`), the greatest version seen per shard (`_maxShardVersions`) and `_validDiffs`. -/
structure DiffTracker (K V : Type) [LinearOrder K] where
  currMap : OrdMap K V
  maxVersion : ChunkVersion
  maxShardVersions : ShardId → Option ChunkVersion
  validDiffs : Int

variable (ops : DiffTrackerOps K V)

/-- `_overlappingRange(min, max)`: the positions of the entries with a key in `[min, max)` when the
map is indexed by min keys, in `(min, max]` when by max keys. -/
def overlappingRange (currMap : OrdMap K V) (min max : K) (ordered : min ≤ max) : Span :=
  if ops.isMinKeyIndexed then
    ⟨currMap.lowerBound min, currMap.lowerBound max, currMap.lowerBound_mono ordered⟩
  else ⟨currMap.upperBound min, currMap.upperBound max, currMap.upperBound_mono ordered⟩

/-- `_isOverlapping(min, max)`. -/
def isOverlapping (currMap : OrdMap K V) (min max : K) (ordered : min ≤ max) : Bool :=
  let overlap := overlappingRange ops currMap min max ordered
  overlap.first != overlap.last

/-- One chunk of the first loop once its epoch matched: `_validDiffs` counts it, the collection
version and the version of its shard rise to its version, and the ranges it overlaps are
erased. -/
def DiffTracker.applyChunk (t : DiffTracker K V) (chunk : ChunkType K) : DiffTracker K V :=
  let chunkVersion := chunk.version
  let shard := ops.shardFor chunk.shard
  let raiseShard := match t.maxShardVersions shard with
    | none => true
    | some shardVersion => shardVersion.combined < chunkVersion.combined
  { currMap := t.currMap.eraseRange
      (overlappingRange ops t.currMap chunk.min chunk.max chunk.min_lt_max.le)
    maxVersion := if chunkVersion.combined > t.maxVersion.combined then chunkVersion else t.maxVersion
    maxShardVersions :=
      if raiseShard then Function.update t.maxShardVersions shard (some chunkVersion)
      else t.maxShardVersions
    validDiffs := t.validDiffs + 1 }

/-- The first loop of `calculateConfigDiff` over the chunks left, with the chunks kept for the
second loop; `none` is its `return -1` at a chunk of another epoch, the state reached kept. -/
def firstLoop (currEpoch : Vector UInt8 12) :
    List (ChunkType K) → DiffTracker K V → List (ChunkType K) →
      DiffTracker K V × Option (List (ChunkType K))
  | [], t, newTracked => (t, some newTracked)
  | chunk :: rest, t, newTracked =>
      if chunk.version.hasEqualEpoch currEpoch then
        firstLoop currEpoch rest (t.applyChunk ops chunk)
          (if ops.isTracked chunk then newTracked ++ [chunk] else newTracked)
      else (t, none)

/-- The second loop: each kept chunk is inserted, unless an entry of the map lies in its
interval, which returns -1. -/
def secondLoop : List (ChunkType K) → OrdMap K V → OrdMap K V × Bool
  | [], currMap => (currMap, true)
  | chunk :: rest, currMap =>
      if isOverlapping ops currMap chunk.min chunk.max chunk.min_lt_max.le then (currMap, false)
      else secondLoop rest (currMap.insert (ops.rangeFor chunk))

/-- `calculateConfigDiff`: the state after applying `chunks`, and the number of chunks applied or
-1. -/
def calculateConfigDiff (t : DiffTracker K V) (chunks : List (ChunkType K)) :
    DiffTracker K V × Int :=
  -- the epoch is read before the first loop raises `_maxVersion`
  let currEpoch := t.maxVersion.epoch
  match firstLoop ops currEpoch chunks { t with validDiffs := 0 } [] with
  | (t, none) => (t, -1)
  | (t, some newTracked) =>
      match secondLoop ops newTracked t.currMap with
      | (currMap, true) => ({ t with currMap }, t.validDiffs)
      | (currMap, false) => ({ t with currMap }, -1)

namespace DiffTrackerOps

/-- The keys `_overlappingRange` covers for a chunk: `[min, max)` when the map is indexed by min
keys, `(min, max]` when by max keys. -/
def KeyIn (chunk : ChunkType K) (k : K) : Prop :=
  if ops.isMinKeyIndexed then chunk.min ≤ k ∧ k < chunk.max else chunk.min < k ∧ k ≤ chunk.max

/-- The entries a tracker keeps of the chunks `P`. -/
def trackedEntries (P : List (ChunkType K)) : List (K × V) :=
  (P.filter ops.isTracked).map ops.rangeFor

section Modes

variable {ops} {chunk : ChunkType K} {k : K}

theorem keyIn_of_minKeyIndexed (indexed : ops.isMinKeyIndexed = true) :
    ops.KeyIn chunk k ↔ chunk.min ≤ k ∧ k < chunk.max := by
  simp [KeyIn, indexed]

theorem keyIn_of_maxKeyIndexed (indexed : ops.isMinKeyIndexed = false) :
    ops.KeyIn chunk k ↔ chunk.min < k ∧ k ≤ chunk.max := by
  simp [KeyIn, indexed]

theorem key_of_minKeyIndexed (indexed : ops.isMinKeyIndexed = true) :
    (ops.rangeFor chunk).1 = chunk.min := by
  simp [ops.rangeFor_key, indexed]

theorem key_of_maxKeyIndexed (indexed : ops.isMinKeyIndexed = false) :
    (ops.rangeFor chunk).1 = chunk.max := by
  simp [ops.rangeFor_key, indexed]

end Modes

theorem keyIn_rangeFor (chunk : ChunkType K) : ops.KeyIn chunk (ops.rangeFor chunk).1 := by
  cases indexed : ops.isMinKeyIndexed
  · rw [keyIn_of_maxKeyIndexed indexed, key_of_maxKeyIndexed indexed]
    exact ⟨chunk.min_lt_max, le_rfl⟩
  · rw [keyIn_of_minKeyIndexed indexed, key_of_minKeyIndexed indexed]
    exact ⟨le_rfl, chunk.min_lt_max⟩

/-- A chunk whose key lies in another chunk's interval overlaps it. -/
theorem overlap_of_keyIn {c d : ChunkType K} (inside : ops.KeyIn d (ops.rangeFor c).1) :
    d.min < c.max ∧ c.min < d.max := by
  cases indexed : ops.isMinKeyIndexed
  · rw [keyIn_of_maxKeyIndexed indexed, key_of_maxKeyIndexed indexed] at inside
    exact ⟨inside.1, lt_of_lt_of_le c.min_lt_max inside.2⟩
  · rw [keyIn_of_minKeyIndexed indexed, key_of_minKeyIndexed indexed] at inside
    exact ⟨lt_of_le_of_lt inside.1 c.min_lt_max, inside.2⟩

/-- The key of a chunk inside a tiled range lies in the interval of a chunk of any tiling. -/
theorem exists_keyIn_of_tiles {Q : List (ChunkType K)} {lo hi : K}
    (tiles : Tiles ChunkType.min ChunkType.max Q lo hi) {c : ChunkType K}
    (within : lo ≤ c.min ∧ c.max ≤ hi) : ∃ d ∈ Q, ops.KeyIn d (ops.rangeFor c).1 := by
  cases indexed : ops.isMinKeyIndexed
  · simp only [keyIn_of_maxKeyIndexed indexed, key_of_maxKeyIndexed indexed]
    exact tiles.covers_right (lt_of_le_of_lt within.1 c.min_lt_max) within.2
  · simp only [keyIn_of_minKeyIndexed indexed, key_of_minKeyIndexed indexed]
    exact tiles.covers c.min within.1 (lt_of_lt_of_le c.min_lt_max within.2)

section Tiling

variable {Q : List (ChunkType K)} {lo hi : K} (tiles : Tiles ChunkType.min ChunkType.max Q lo hi)
include tiles

/-- Of two chunks of a tiling, neither key lies in the other's interval. -/
theorem not_keyIn_of_ne {c d : ChunkType K} (mc : c ∈ Q) (md : d ∈ Q) (differ : c ≠ d) :
    ¬ops.KeyIn d (ops.rangeFor c).1 := fun inside =>
  differ (tiles.eq_of_overlap mc md (ops.overlap_of_keyIn inside).2 (ops.overlap_of_keyIn inside).1)

theorem key_injective {c d : ChunkType K} (mc : c ∈ Q) (md : d ∈ Q)
    (same : (ops.rangeFor c).1 = (ops.rangeFor d).1) : c = d := by
  by_contra differ
  have inside := ops.keyIn_rangeFor d
  rw [← same] at inside
  exact ops.not_keyIn_of_ne tiles mc md differ inside

theorem nodup_trackedEntries : (ops.trackedEntries Q).Nodup :=
  (tiles.nodup.filter _).map_on fun _ mc _ md same =>
    ops.key_injective tiles (List.mem_of_mem_filter mc) (List.mem_of_mem_filter md)
      (congrArg Prod.fst same)

end Tiling

end DiffTrackerOps

section Steps

variable {ops}

theorem mem_eraseRange_overlappingRange (m : OrdMap K V) (chunk : ChunkType K) (e : K × V) :
    e ∈ (m.eraseRange (overlappingRange ops m chunk.min chunk.max chunk.min_lt_max.le)).entries ↔
      e ∈ m.entries ∧ ¬ops.KeyIn chunk e.1 := by
  cases indexed : ops.isMinKeyIndexed
  · simp only [overlappingRange, indexed, DiffTrackerOps.keyIn_of_maxKeyIndexed indexed]
    exact m.mem_eraseRange_upperBound chunk.min_lt_max.le e
  · simp only [overlappingRange, indexed, DiffTrackerOps.keyIn_of_minKeyIndexed indexed]
    exact m.mem_eraseRange_lowerBound chunk.min_lt_max.le e

theorem isOverlapping_iff (m : OrdMap K V) (chunk : ChunkType K) :
    isOverlapping ops m chunk.min chunk.max chunk.min_lt_max.le = true ↔
      ∃ e ∈ m.entries, ops.KeyIn chunk e.1 := by
  cases indexed : ops.isMinKeyIndexed
  · simpa [isOverlapping, overlappingRange, indexed, DiffTrackerOps.keyIn_of_maxKeyIndexed indexed]
      using m.upperBound_ne_iff chunk.min_lt_max.le
  · simpa [isOverlapping, overlappingRange, indexed, DiffTrackerOps.keyIn_of_minKeyIndexed indexed]
      using m.lowerBound_ne_iff chunk.min_lt_max.le

@[simp] theorem validDiffs_applyChunk (t : DiffTracker K V) (chunk : ChunkType K) :
    (t.applyChunk ops chunk).validDiffs = t.validDiffs + 1 := rfl

theorem mem_applyChunk (t : DiffTracker K V) (chunk : ChunkType K) (e : K × V) :
    e ∈ (t.applyChunk ops chunk).currMap.entries ↔ e ∈ t.currMap.entries ∧ ¬ops.KeyIn chunk e.1 :=
  mem_eraseRange_overlappingRange t.currMap chunk e

/-- After the first loop, the entries left are those no applied chunk covers. -/
theorem mem_foldl_applyChunk (e : K × V) :
    ∀ (chunks : List (ChunkType K)) (t : DiffTracker K V),
      e ∈ (chunks.foldl (·.applyChunk ops ·) t).currMap.entries ↔
        e ∈ t.currMap.entries ∧ ∀ c ∈ chunks, ¬ops.KeyIn c e.1
  | [], t => by simp
  | chunk :: rest, t => by
      rw [List.foldl_cons, mem_foldl_applyChunk e rest, mem_applyChunk, List.forall_mem_cons]
      tauto

theorem validDiffs_foldl_applyChunk :
    ∀ (chunks : List (ChunkType K)) (t : DiffTracker K V),
      (chunks.foldl (·.applyChunk ops ·) t).validDiffs = t.validDiffs + chunks.length
  | [], t => by simp
  | chunk :: rest, t => by
      rw [List.foldl_cons, validDiffs_foldl_applyChunk rest, validDiffs_applyChunk,
        List.length_cons]
      omega

/-- When every chunk is of the current epoch, the first loop applies them all and keeps the
tracked ones. -/
theorem firstLoop_of_epochs (currEpoch : Vector UInt8 12) :
    ∀ (chunks : List (ChunkType K)) (t : DiffTracker K V) (newTracked : List (ChunkType K)),
      (∀ c ∈ chunks, c.version.epoch = currEpoch) →
      firstLoop ops currEpoch chunks t newTracked =
        (chunks.foldl (·.applyChunk ops ·) t, some (newTracked ++ chunks.filter ops.isTracked))
  | [], t, newTracked, _ => by simp [firstLoop]
  | chunk :: rest, t, newTracked, epochs => by
      have current : chunk.version.hasEqualEpoch currEpoch = true := by
        simp [ChunkVersion.hasEqualEpoch, epochs chunk List.mem_cons_self]
      rw [firstLoop, if_pos current, firstLoop_of_epochs currEpoch rest _ _
        fun c member => epochs c (List.mem_cons_of_mem _ member), List.foldl_cons, List.filter_cons]
      cases ops.isTracked chunk <;> simp

/-- The second loop inserts every kept chunk when no entry of the map lies in a chunk's interval
and no chunk's key lies in the interval of a later one. -/
theorem secondLoop_of_apart :
    ∀ (chunks : List (ChunkType K)) (m : OrdMap K V),
      (∀ c ∈ chunks, ∀ e ∈ m.entries, ¬ops.KeyIn c e.1) →
      chunks.Pairwise (fun c d => ¬ops.KeyIn d (ops.rangeFor c).1) →
      ∃ m', secondLoop ops chunks m = (m', true) ∧
        ∀ e, e ∈ m'.entries ↔ e ∈ m.entries ∨ ∃ c ∈ chunks, ops.rangeFor c = e
  | [], m, _, _ => ⟨m, rfl, by simp⟩
  | chunk :: rest, m, apart, pairwise => by
      have clear : isOverlapping ops m chunk.min chunk.max chunk.min_lt_max.le = false := by
        rw [← Bool.not_eq_true, isOverlapping_iff]
        rintro ⟨e, member, inside⟩
        exact apart chunk List.mem_cons_self e member inside
      -- the chunk's own key is in its interval, so no entry has it
      have absent : ∀ e ∈ m.entries, e.1 ≠ (ops.rangeFor chunk).1 := fun e member same =>
        apart chunk List.mem_cons_self e member (same ▸ ops.keyIn_rangeFor chunk)
      have inserted := fun x => m.mem_insert_of_absent (x := x) absent
      obtain ⟨m', loop, members⟩ := secondLoop_of_apart rest (m.insert (ops.rangeFor chunk))
        (fun c mc e member => by
          rcases (inserted e).mp member with new | old
          · exact new ▸ List.rel_of_pairwise_cons pairwise mc
          · exact apart c (List.mem_cons_of_mem _ mc) e old)
        pairwise.of_cons
      refine ⟨m', by rw [secondLoop, if_neg (by simp [clear]), loop], fun e => ?_⟩
      rw [members, inserted e]
      simp only [List.mem_cons, exists_eq_or_imp, eq_comm (a := e)]
      tauto

section Versions

variable (ops)

/-- One chunk raises the collection version to its own when it is above, never lowers it. -/
theorem maxVersion_applyChunk (t : DiffTracker K V) (chunk : ChunkType K) :
    t.maxVersion.combined ≤ (t.applyChunk ops chunk).maxVersion.combined ∧
      chunk.version.combined ≤ (t.applyChunk ops chunk).maxVersion.combined ∧
      ((t.applyChunk ops chunk).maxVersion = t.maxVersion ∨
        (t.applyChunk ops chunk).maxVersion = chunk.version) := by
  simp only [DiffTracker.applyChunk]
  split_ifs with above
  · exact ⟨UInt64.le_of_lt above, UInt64.le_refl _, .inr rfl⟩
  · exact ⟨UInt64.le_refl _, UInt64.not_lt.mp above, .inl rfl⟩

/-- One chunk raises the version of its shard to its own when it is above or the shard has
none, and leaves the other shards. -/
theorem shardVersion_applyChunk (t : DiffTracker K V) (chunk : ChunkType K) (shard : ShardId) :
    (∀ v, t.maxShardVersions shard = some v →
      ∃ w, (t.applyChunk ops chunk).maxShardVersions shard = some w ∧ v.combined ≤ w.combined) ∧
      (ops.shardFor chunk.shard = shard → ∃ w,
        (t.applyChunk ops chunk).maxShardVersions shard = some w ∧
          chunk.version.combined ≤ w.combined) ∧
      ((t.applyChunk ops chunk).maxShardVersions shard = t.maxShardVersions shard ∨
        ops.shardFor chunk.shard = shard ∧
          (t.applyChunk ops chunk).maxShardVersions shard = some chunk.version) := by
  by_cases own : ops.shardFor chunk.shard = shard
  · subst own
    simp only [DiffTracker.applyChunk]
    cases recorded : t.maxShardVersions (ops.shardFor chunk.shard) with
    | none => simp
    | some v =>
        by_cases above : v.combined < chunk.version.combined
        · simp [above, UInt64.le_of_lt above]
        · simp [above, recorded, UInt64.not_lt.mp above]
  · have unchanged : (t.applyChunk ops chunk).maxShardVersions shard = t.maxShardVersions shard := by
      simp only [DiffTracker.applyChunk]
      split_ifs
      · exact Function.update_of_ne (Ne.symm own) _ _
      · rfl
    simp only [unchanged, own, false_implies, true_or, and_true]
    exact fun v recorded => ⟨v, recorded, UInt64.le_refl _⟩

/-- Over the first loop, the collection version rises to the greatest of its own and the
chunks' versions. -/
theorem maxVersion_foldl_applyChunk :
    ∀ (chunks : List (ChunkType K)) (t : DiffTracker K V),
      t.maxVersion.combined ≤ (chunks.foldl (·.applyChunk ops ·) t).maxVersion.combined ∧
        (∀ c ∈ chunks, c.version.combined ≤ (chunks.foldl (·.applyChunk ops ·) t).maxVersion.combined) ∧
        ((chunks.foldl (·.applyChunk ops ·) t).maxVersion = t.maxVersion ∨
          ∃ c ∈ chunks, (chunks.foldl (·.applyChunk ops ·) t).maxVersion = c.version)
  | [], t => by simp
  | chunk :: rest, t => by
      obtain ⟨raised, own, which⟩ := maxVersion_applyChunk ops t chunk
      obtain ⟨later, others, whichLater⟩ := maxVersion_foldl_applyChunk rest (t.applyChunk ops chunk)
      rw [List.foldl_cons]
      refine ⟨UInt64.le_trans raised later, ?_, ?_⟩
      · rintro c (_ | ⟨_, member⟩)
        · exact UInt64.le_trans own later
        · exact others c member
      · rcases whichLater with same | ⟨c, member, same⟩
        · rcases which with kept | taken
          · exact .inl (same.trans kept)
          · exact .inr ⟨chunk, List.mem_cons_self, same.trans taken⟩
        · exact .inr ⟨c, List.mem_cons_of_mem _ member, same⟩

/-- Over the first loop, each shard's version rises to the greatest of its own and the versions
of the chunks on it. -/
theorem shardVersion_foldl_applyChunk (shard : ShardId) :
    ∀ (chunks : List (ChunkType K)) (t : DiffTracker K V),
      (∀ v, t.maxShardVersions shard = some v → ∃ w,
          (chunks.foldl (·.applyChunk ops ·) t).maxShardVersions shard = some w ∧
            v.combined ≤ w.combined) ∧
        (∀ c ∈ chunks, ops.shardFor c.shard = shard → ∃ w,
          (chunks.foldl (·.applyChunk ops ·) t).maxShardVersions shard = some w ∧
            c.version.combined ≤ w.combined) ∧
        ((chunks.foldl (·.applyChunk ops ·) t).maxShardVersions shard = t.maxShardVersions shard ∨
          ∃ c ∈ chunks, ops.shardFor c.shard = shard ∧
            (chunks.foldl (·.applyChunk ops ·) t).maxShardVersions shard = some c.version)
  | [], t => by simpa using fun v recorded => ⟨v, recorded, UInt64.le_refl _⟩
  | chunk :: rest, t => by
      obtain ⟨raised, own, which⟩ := shardVersion_applyChunk ops t chunk shard
      obtain ⟨later, others, whichLater⟩ :=
        shardVersion_foldl_applyChunk shard rest (t.applyChunk ops chunk)
      rw [List.foldl_cons]
      refine ⟨fun v recorded => ?_, ?_, ?_⟩
      · obtain ⟨w, step, below⟩ := raised v recorded
        obtain ⟨u, final, above⟩ := later w step
        exact ⟨u, final, UInt64.le_trans below above⟩
      · rintro c (_ | ⟨_, member⟩) onShard
        · obtain ⟨w, step, below⟩ := own onShard
          obtain ⟨u, final, above⟩ := later w step
          exact ⟨u, final, UInt64.le_trans below above⟩
        · exact others c member onShard
      · rcases whichLater with same | ⟨c, member, onShard, same⟩
        · rcases which with kept | ⟨onShard, taken⟩
          · exact .inl (same.trans kept)
          · exact .inr ⟨chunk, List.mem_cons_self, onShard, same.trans taken⟩
        · exact .inr ⟨c, List.mem_cons_of_mem _ member, onShard, same⟩

/-- With every chunk of the cached epoch, `calculateConfigDiff` leaves the state of its first loop,
whatever its second loop finds, but for the map. -/
theorem calculateConfigDiff_of_epochs (t : DiffTracker K V) (chunks : List (ChunkType K))
    (epochs : ∀ c ∈ chunks, c.version.epoch = t.maxVersion.epoch) :
    ∃ currMap, (calculateConfigDiff ops t chunks).1 =
      { chunks.foldl (·.applyChunk ops ·) { t with validDiffs := 0 } with currMap } := by
  simp only [calculateConfigDiff, firstLoop_of_epochs _ _ _ _ epochs, List.nil_append]
  split <;> exact ⟨_, rfl⟩

end Versions

/-- The first loop gets through only when every chunk is of the current epoch. -/
theorem epochs_of_firstLoop (currEpoch : Vector UInt8 12) :
    ∀ (chunks : List (ChunkType K)) (t : DiffTracker K V) (newTracked : List (ChunkType K)),
      (firstLoop ops currEpoch chunks t newTracked).2.isSome = true →
        ∀ c ∈ chunks, c.version.epoch = currEpoch
  | [], _, _, _ => by simp
  | chunk :: rest, t, newTracked, through => by
      by_cases current : chunk.version.hasEqualEpoch currEpoch
      · rw [firstLoop, if_pos current] at through
        rintro c (_ | ⟨_, member⟩)
        · simpa [ChunkVersion.hasEqualEpoch] using current
        · exact epochs_of_firstLoop currEpoch rest _ _ through c member
      · rw [firstLoop, if_neg current] at through
        simp at through

/-- The second loop gets through only when it inserted every chunk, each at a key the map did not
hold: its map is the map it started from and the chunks' entries. -/
theorem mem_secondLoop :
    ∀ (chunks : List (ChunkType K)) (m : OrdMap K V), (secondLoop ops chunks m).2 = true →
      ∀ e, e ∈ (secondLoop ops chunks m).1.entries ↔
        e ∈ m.entries ∨ ∃ c ∈ chunks, ops.rangeFor c = e
  | [], m, _ => by simp [secondLoop]
  | chunk :: rest, m, through => by
      by_cases overlapping : isOverlapping ops m chunk.min chunk.max chunk.min_lt_max.le
      · rw [secondLoop, if_pos overlapping] at through
        simp at through
      · rw [secondLoop, if_neg overlapping] at through ⊢
        -- no entry lies in the chunk's interval, which holds the chunk's own key
        have absent : ∀ e ∈ m.entries, e.1 ≠ (ops.rangeFor chunk).1 := fun e member same =>
          overlapping ((isOverlapping_iff m chunk).mpr ⟨e, member, same ▸ ops.keyIn_rangeFor chunk⟩)
        intro e
        rw [mem_secondLoop rest _ through, m.mem_insert_of_absent absent]
        simp only [List.mem_cons, exists_eq_or_imp, eq_comm (a := e)]
        tauto

/-- A positive count from `calculateConfigDiff` means both loops got through: every chunk was of
the cached epoch, the count is the number of chunks, the versions are those the first loop
reached, and the map holds the cached entries no chunk covers and the tracked chunks. -/
theorem calculateConfigDiff_of_pos (t : DiffTracker K V) (chunks : List (ChunkType K))
    (applied : 0 < (calculateConfigDiff ops t chunks).2) :
    (∀ c ∈ chunks, c.version.epoch = t.maxVersion.epoch) ∧
      ∃ currMap : OrdMap K V, calculateConfigDiff ops t chunks =
          ({ chunks.foldl (·.applyChunk ops ·) { t with validDiffs := 0 } with currMap },
            (chunks.length : Int)) ∧
        ∀ e, e ∈ currMap.entries ↔ (e ∈ t.currMap.entries ∧ ∀ c ∈ chunks, ¬ops.KeyIn c e.1) ∨
          ∃ c ∈ chunks.filter ops.isTracked, ops.rangeFor c = e := by
  cases first : firstLoop ops t.maxVersion.epoch chunks { t with validDiffs := 0 } [] with
  | mk reached kept =>
      cases kept with
      | none => simp [calculateConfigDiff, first] at applied
      | some newTracked =>
          have epochs := epochs_of_firstLoop t.maxVersion.epoch chunks { t with validDiffs := 0 } []
            (by rw [first]; rfl)
          have loop : firstLoop ops _ _ _ _ = _ :=
            firstLoop_of_epochs t.maxVersion.epoch chunks { t with validDiffs := 0 } [] epochs
          rw [first, List.nil_append, Prod.mk.injEq, Option.some.injEq] at loop
          obtain ⟨rfl, rfl⟩ := loop
          set reached := chunks.foldl (·.applyChunk ops ·) ({ t with validDiffs := 0 } : DiffTracker K V)
          cases second : secondLoop ops (chunks.filter ops.isTracked) reached.currMap with
          | mk currMap through =>
              cases through with
              | false => simp [calculateConfigDiff, first, second] at applied
              | true =>
                  have members := @mem_secondLoop K V _ ops (chunks.filter ops.isTracked)
                    reached.currMap (by rw [second])
                  rw [second] at members
                  refine ⟨epochs, currMap, ?_, fun e => ?_⟩
                  · simp [calculateConfigDiff, first, second, reached, validDiffs_foldl_applyChunk]
                  · rw [members, mem_foldl_applyChunk]

/-- With every chunk of the cached epoch and no tracked chunk's key in the interval of a later
one, `calculateConfigDiff` applies every chunk. -/
theorem calculateConfigDiff_snd_of_apart (t : DiffTracker K V) (chunks : List (ChunkType K))
    (epochs : ∀ c ∈ chunks, c.version.epoch = t.maxVersion.epoch)
    (apart : (chunks.filter ops.isTracked).Pairwise fun c d => ¬ops.KeyIn d (ops.rangeFor c).1) :
    (calculateConfigDiff ops t chunks).2 = chunks.length := by
  -- the first loop erased every cached entry a chunk covers
  obtain ⟨m', second, -⟩ := secondLoop_of_apart (chunks.filter ops.isTracked)
    (chunks.foldl (·.applyChunk ops ·) ({ t with validDiffs := 0 } : DiffTracker K V)).currMap
    (fun c mc e member => ((mem_foldl_applyChunk e chunks _).mp member).2 c
      (List.mem_of_mem_filter mc)) apart
  simp [calculateConfigDiff, firstLoop_of_epochs _ _ _ _ epochs, second, validDiffs_foldl_applyChunk]

end Steps

/-- On chunks of the cached epoch, whether or not `calculateConfigDiff` then finds an overlap, it
counts every chunk, keeps the epoch, raises the collection version to the greatest of its own and
the chunks' versions, and raises each shard's version to the greatest of its own and the
versions of the chunks on it. -/
theorem calculateConfigDiff_raises_versions (t : DiffTracker K V) (chunks : List (ChunkType K))
    (epochs : ∀ c ∈ chunks, c.version.epoch = t.maxVersion.epoch) :
    let result := (calculateConfigDiff ops t chunks).1
    result.validDiffs = chunks.length ∧ result.maxVersion.epoch = t.maxVersion.epoch ∧
      t.maxVersion.combined ≤ result.maxVersion.combined ∧
      (∀ c ∈ chunks, c.version.combined ≤ result.maxVersion.combined) ∧
      (result.maxVersion = t.maxVersion ∨ ∃ c ∈ chunks, result.maxVersion = c.version) ∧
      ∀ shard,
        (∀ v, t.maxShardVersions shard = some v →
          ∃ w, result.maxShardVersions shard = some w ∧ v.combined ≤ w.combined) ∧
        (∀ c ∈ chunks, ops.shardFor c.shard = shard →
          ∃ w, result.maxShardVersions shard = some w ∧ c.version.combined ≤ w.combined) ∧
        (result.maxShardVersions shard = t.maxShardVersions shard ∨
          ∃ c ∈ chunks, ops.shardFor c.shard = shard ∧ result.maxShardVersions shard = some c.version) := by
  obtain ⟨currMap, result⟩ := calculateConfigDiff_of_epochs ops t chunks epochs
  obtain ⟨raised, covers, which⟩ := maxVersion_foldl_applyChunk ops chunks
    { t with validDiffs := 0 }
  simp only [result]
  refine ⟨by simp [validDiffs_foldl_applyChunk], ?_, raised, covers, which,
    fun shard => shardVersion_foldl_applyChunk ops shard chunks { t with validDiffs := 0 }⟩
  -- the version reached is the cached one or a chunk's, both of the cached epoch
  rcases which with same | ⟨c, member, same⟩
  · exact congrArg ChunkVersion.epoch same
  · rw [same]
    exact epochs c member

section Refinement

variable {ops} {P Q : List (ChunkType K)} {lo hi : K} {floor : UInt64}
  (old : Tiles ChunkType.min ChunkType.max P lo hi) (new : Tiles ChunkType.min ChunkType.max Q lo hi)
  (newer : ∀ c ∈ Q, c ∉ P → floor ≤ c.version.combined)
include old new newer

/-- A chunk of the old tiling that the new one no longer has lies, by its key, in the interval
of a new chunk, whose version is at or above the cached one. -/
theorem exists_newer_keyIn {o : ChunkType K} (mo : o ∈ P) (gone : o ∉ Q) :
    ∃ d ∈ Q, floor ≤ d.version.combined ∧ ops.KeyIn d (ops.rangeFor o).1 := by
  obtain ⟨d, md, inside⟩ := ops.exists_keyIn_of_tiles new (old.within o mo)
  refine ⟨d, md, newer d md fun dOld => gone ?_, inside⟩
  -- a chunk of both tilings overlapping `o` would be `o`
  have same := old.eq_of_overlap mo dOld (ops.overlap_of_keyIn inside).2
    (ops.overlap_of_keyIn inside).1
  rw [same]
  exact md

/-- What the two loops leave, the cached entries no applied chunk covers and the tracked chunks
applied, are the tracked chunks of the new tiling when the chunks applied are the new tiling's
chunks at or above the cached version. -/
theorem applied_iff_mem_trackedEntries {chunks : List (ChunkType K)}
    (queried : ∀ c, c ∈ chunks ↔ c ∈ Q ∧ floor ≤ c.version.combined) (e : K × V) :
    ((e ∈ ops.trackedEntries P ∧ ∀ c ∈ chunks, ¬ops.KeyIn c e.1) ∨
        ∃ c ∈ chunks.filter ops.isTracked, ops.rangeFor c = e) ↔
      e ∈ ops.trackedEntries Q := by
  simp only [DiffTrackerOps.trackedEntries, List.mem_map, List.mem_filter]
  constructor
  · rintro (⟨⟨o, ⟨mo, tracked⟩, rfl⟩, uncovered⟩ | ⟨c, ⟨mc, tracked⟩, rfl⟩)
    · by_cases kept : o ∈ Q
      · exact ⟨o, ⟨kept, tracked⟩, rfl⟩
      · obtain ⟨d, md, above, inside⟩ := exists_newer_keyIn old new newer mo kept
        exact absurd inside (uncovered d ((queried d).mpr ⟨md, above⟩))
    · exact ⟨c, ⟨((queried c).mp mc).1, tracked⟩, rfl⟩
  · rintro ⟨c, ⟨mc, tracked⟩, rfl⟩
    by_cases above : floor ≤ c.version.combined
    · exact .inr ⟨c, ⟨(queried c).mpr ⟨mc, above⟩, tracked⟩, rfl⟩
    · -- an unchanged chunk: cached before, and no applied chunk, all of the new tiling, covers it
      have cachedBefore : c ∈ P := by
        by_contra fresh
        exact above (newer c mc fresh)
      refine .inl ⟨⟨c, ⟨cachedBefore, tracked⟩, rfl⟩, fun d md => ?_⟩
      have differ : c ≠ d := fun same => above (same ▸ ((queried d).mp md).2)
      exact ops.not_keyIn_of_ne new mc ((queried d).mp md).1 differ

end Refinement

/-- `calculateConfigDiff` brings a cache of the old tiling to a cache of the new one. The chunks
of a collection tile its shard key range before and after; every chunk that is new carries a
version at or above the cached collection version, in the cached epoch; and the diff applied is
the new tiling's chunks at or above that version, in any order. Then every chunk is applied,
and the map holds exactly the entries of the new tiling's tracked chunks. -/
theorem calculateConfigDiff_tracks_new_tiling {P Q : List (ChunkType K)} {lo hi : K}
    (old : Tiles ChunkType.min ChunkType.max P lo hi)
    (new : Tiles ChunkType.min ChunkType.max Q lo hi) (t : DiffTracker K V)
    (cached : t.currMap.entries.Perm (ops.trackedEntries P))
    (epochs : ∀ c ∈ Q, c.version.epoch = t.maxVersion.epoch)
    (newer : ∀ c ∈ Q, c ∉ P → t.maxVersion.combined ≤ c.version.combined)
    (chunks : List (ChunkType K))
    (answer : chunks.Perm (Q.filter fun c => t.maxVersion.combined ≤ c.version.combined)) :
    (calculateConfigDiff ops t chunks).2 = chunks.length ∧
      (calculateConfigDiff ops t chunks).1.currMap.entries.Perm (ops.trackedEntries Q) := by
  have queried : ∀ c, c ∈ chunks ↔ c ∈ Q ∧ t.maxVersion.combined ≤ c.version.combined :=
    fun c => by rw [answer.mem_iff, List.mem_filter, decide_eq_true_iff]
  have nodup : chunks.Nodup := answer.nodup_iff.mpr (new.nodup.filter _)
  let applied := chunks.foldl (·.applyChunk ops ·) { t with validDiffs := 0 }
  have first : firstLoop ops t.maxVersion.epoch chunks { t with validDiffs := 0 } [] =
      (applied, some (chunks.filter ops.isTracked)) := by
    rw [firstLoop_of_epochs _ _ _ _ fun c mc => epochs c ((queried c).mp mc).1, List.nil_append]
  -- the tracked chunks are inserted: the erase cleared their intervals, and they are disjoint
  have apart : (chunks.filter ops.isTracked).Pairwise
      fun c d => ¬ops.KeyIn d (ops.rangeFor c).1 :=
    (nodup.pairwise_of_forall_ne fun c mc d md differ =>
      ops.not_keyIn_of_ne new ((queried c).mp mc).1 ((queried d).mp md).1 differ).sublist
      List.filter_sublist
  obtain ⟨m', second, members⟩ := secondLoop_of_apart (chunks.filter ops.isTracked)
    applied.currMap
    (fun c mc e member => ((mem_foldl_applyChunk e chunks _).mp member).2 c
      (List.mem_of_mem_filter mc)) apart
  have counted : applied.validDiffs = chunks.length := by
    simp [applied, validDiffs_foldl_applyChunk]
  have result :
      calculateConfigDiff ops t chunks = ({ applied with currMap := m' }, (chunks.length : Int)) := by
    simp only [calculateConfigDiff, first, second]
    rw [counted]
  rw [result]
  refine ⟨rfl, (List.perm_ext_iff_of_nodup m'.nodup
    (ops.nodup_trackedEntries new)).mpr fun e => ?_⟩
  rw [members, mem_foldl_applyChunk, ← applied_iff_mem_trackedEntries old new newer queried e]
  simp only [cached.mem_iff]

/-- The version `combined` of one epoch. -/
def versionAt (combined : UInt64) : ChunkVersion := ⟨combined, Vector.replicate 12 7⟩

/-- Chunk `[0, 10)` on shard `s0` at version 1 and chunk `[10, 20)` on `s1` at version 2. -/
def beforeSplit : List (ChunkType Nat) :=
  [⟨0, 10, versionAt 1, "s0", by decide⟩, ⟨10, 20, versionAt 2, "s1", by decide⟩]

/-- The first chunk split at 4, its halves at versions 3 and 4. -/
def afterSplit : List (ChunkType Nat) :=
  [⟨0, 4, versionAt 3, "s0", by decide⟩, ⟨4, 10, versionAt 4, "s0", by decide⟩,
    ⟨10, 20, versionAt 2, "s1", by decide⟩]

theorem tiles_beforeSplit : Tiles ChunkType.min ChunkType.max beforeSplit 0 20 where
  nonempty := by decide
  within := by decide
  disjoint := by decide
  covers x _ below := by
    by_cases low : x < 10
    · exact ⟨_, List.mem_cons_self, Nat.zero_le x, low⟩
    · exact ⟨_, List.mem_cons_of_mem _ List.mem_cons_self, not_lt.mp low, below⟩

theorem tiles_afterSplit : Tiles ChunkType.min ChunkType.max afterSplit 0 20 where
  nonempty := by decide
  within := by decide
  disjoint := by decide
  covers x _ below := by
    by_cases low : x < 4
    · exact ⟨_, List.mem_cons_self, Nat.zero_le x, low⟩
    · by_cases middle : x < 10
      · exact ⟨_, List.mem_cons_of_mem _ List.mem_cons_self, not_lt.mp low, middle⟩
      · exact ⟨_, List.mem_cons_of_mem _ (List.mem_cons_of_mem _ List.mem_cons_self),
          not_lt.mp middle, below⟩

/-- Shard `s0`'s metadata before the split: its chunk `[0, 10)`, at collection version 2. -/
def splitCache : DiffTracker Nat (CachedChunkInfo Nat) where
  currMap := ⟨[(0, ⟨10, versionAt 1⟩)], by decide⟩
  maxVersion := versionAt 2
  maxShardVersions := fun shard => if shard = "s0" then some (versionAt 1) else none
  validDiffs := 0

/-- The chunks at or above version 2, sorted by version as the query asks. -/
def splitAnswer : List (ChunkType Nat) :=
  [⟨10, 20, versionAt 2, "s1", by decide⟩, ⟨0, 4, versionAt 3, "s0", by decide⟩,
    ⟨4, 10, versionAt 4, "s0", by decide⟩]

theorem calculateConfigDiff_tracks_new_tiling_split :
    (calculateConfigDiff (scmConfigDiffTracker "s0") splitCache splitAnswer).2 =
        splitAnswer.length ∧
      (calculateConfigDiff (scmConfigDiffTracker "s0") splitCache splitAnswer).1.currMap.entries.Perm
        ((scmConfigDiffTracker "s0").trackedEntries afterSplit) :=
  calculateConfigDiff_tracks_new_tiling (scmConfigDiffTracker "s0") tiles_beforeSplit
    tiles_afterSplit splitCache (by decide) (by decide) (by decide) splitAnswer (by decide)

theorem calculateConfigDiff_raises_versions_split :
    let result := (calculateConfigDiff (scmConfigDiffTracker "s0") splitCache splitAnswer).1
    result.validDiffs = splitAnswer.length ∧ result.maxVersion.epoch = splitCache.maxVersion.epoch ∧
      splitCache.maxVersion.combined ≤ result.maxVersion.combined ∧
      (∀ c ∈ splitAnswer, c.version.combined ≤ result.maxVersion.combined) ∧
      (result.maxVersion = splitCache.maxVersion ∨ ∃ c ∈ splitAnswer, result.maxVersion = c.version) ∧
      ∀ shard,
        (∀ v, splitCache.maxShardVersions shard = some v →
          ∃ w, result.maxShardVersions shard = some w ∧ v.combined ≤ w.combined) ∧
        (∀ c ∈ splitAnswer, (scmConfigDiffTracker (K := Nat) "s0").shardFor c.shard = shard →
          ∃ w, result.maxShardVersions shard = some w ∧ c.version.combined ≤ w.combined) ∧
        (result.maxShardVersions shard = splitCache.maxShardVersions shard ∨
          ∃ c ∈ splitAnswer, (scmConfigDiffTracker (K := Nat) "s0").shardFor c.shard = shard ∧
            result.maxShardVersions shard = some c.version) :=
  calculateConfigDiff_raises_versions (scmConfigDiffTracker "s0") splitCache splitAnswer (by decide)

example : (calculateConfigDiff (scmConfigDiffTracker "s0") splitCache splitAnswer).1.currMap.entries =
    [(0, ⟨4, versionAt 3⟩), (4, ⟨10, versionAt 4⟩)] := by decide

end FastMongo.Sharding

import FastMongo.Bson.Value
import FastMongo.Lib.Intervals
import FastMongo.Sharding.ChunkDiff
import Mathlib.Algebra.Group.Int.Defs
import Mathlib.Algebra.Group.Nat.Defs

/-!
`CollectionMetadata` of `db/s/collection_metadata.cpp`, what a shard knows of a sharded
collection, and the range arithmetic of `db/range_arithmetic.cpp` it is read with. Its maps go
from a chunk's min key to its max key and version: `_chunksMap` holds the chunks the shard owns,
`_rangesMap` the same keys with adjacent chunks coalesced (`fillRanges`), and `_pendingMap` the
chunks being migrated in. Every lookup is a search tree lookup: `upper_bound` or `lower_bound`,
then one step back to the entry that may reach over the key.

A range map is read as the half-open intervals `[min, max)` of its entries. As the header of
`range_arithmetic.h` says, the lookups are only right when the intervals do not overlap
(`OrdMap.Apart`); then each lookup agrees with a scan of all entries, `keyBelongsToMe` tells the
keys of the owned chunks, and `getNextChunk` finds the first chunk that ends after the key.
-/

namespace FastMongo.Sharding

open RangeMap FastMongo.Bson

/-- `(int)` of a value below `2^32`, read in two's complement. -/
def toIntValue (n : Nat) : Int :=
  if n < 2 ^ 31 then n else n - 2 ^ 32

/-- `ChunkVersion::majorVersion`: `_combined >> 32` returned as an `int`. -/
def ChunkVersion.majorVersion (v : ChunkVersion) : Int :=
  toIntValue (v.combined.toNat / 2 ^ 32)

/-- `ChunkVersion::minorVersion`: `_combined & 0xFFFF`, only the low sixteen bits. -/
def ChunkVersion.minorVersion (v : ChunkVersion) : Int :=
  v.combined.toNat % 2 ^ 16

/-- The epoch of `ChunkVersion::IGNORED()`: `OID::init(Date_t(), true)`, a zero timestamp and all
other bytes set. -/
def ignoredEpoch : Vector UInt8 12 :=
  Vector.replicate 4 (0 : UInt8) ++ Vector.replicate 8 (255 : UInt8)

/-- `ChunkVersion::IGNORED()`. -/
def ChunkVersion.IGNORED : ChunkVersion := ⟨0, ignoredEpoch⟩

/-- `ChunkVersion()`: zero, with the zero `OID`. -/
def ChunkVersion.zero : ChunkVersion := ⟨0, Vector.replicate 12 0⟩

/-- `ChunkVersion::isSet`. -/
def ChunkVersion.isSet (v : ChunkVersion) : Bool := v.combined > 0

variable {K : Type} [LinearOrder K]

/-- `rangeContains`: `point` in `[inclusiveLower, exclusiveUpper)`. -/
def rangeContains (inclusiveLower exclusiveUpper point : K) : Bool :=
  decide (inclusiveLower ≤ point) && decide (point < exclusiveUpper)

/-- `rangeOverlaps`: the two half-open ranges meet. -/
def rangeOverlaps (inclusiveLower1 exclusiveUpper1 inclusiveLower2 exclusiveUpper2 : K) : Bool :=
  decide (inclusiveLower2 < exclusiveUpper1) && decide (inclusiveLower1 < exclusiveUpper2)

section RangeMaps

variable (ranges : OrdMap K (CachedChunkInfo K))

/-- `rangeMapOverlapBounds`: from `lower_bound(inclusiveLower)`, stepped back to the previous entry
unless that one's max key is at most `inclusiveLower`, to `lower_bound(exclusiveUpper)`. -/
def rangeMapOverlapBounds (inclusiveLower exclusiveUpper : K) : Nat × Nat :=
  let low := ranges.lowerBound inclusiveLower
  let low :=
    if low ≠ 0 then
      match ranges.entries[low - 1]? with
      | some prev => if prev.2.maxKey ≤ inclusiveLower then low else low - 1
      | none => low
    else low
  (low, ranges.lowerBound exclusiveUpper)

/-- `getRangeMapOverlap`: the ranges between the overlap bounds. -/
def getRangeMapOverlap (inclusiveLower exclusiveUpper : K) : List (K × K) :=
  let bounds := rangeMapOverlapBounds ranges inclusiveLower exclusiveUpper
  ((ranges.entries.drop bounds.1).take (bounds.2 - bounds.1)).map fun e => (e.1, e.2.maxKey)

/-- `rangeMapOverlaps`. -/
def rangeMapOverlaps (inclusiveLower exclusiveUpper : K) : Bool :=
  let bounds := rangeMapOverlapBounds ranges inclusiveLower exclusiveUpper
  bounds.1 != bounds.2

/-- `rangeMapContains`: the first overlapping entry has exactly the given bounds. -/
def rangeMapContains (inclusiveLower exclusiveUpper : K) : Bool :=
  let bounds := rangeMapOverlapBounds ranges inclusiveLower exclusiveUpper
  match ranges.entries[bounds.1]? with
  | none => false
  | some first => decide (first.1 = inclusiveLower) && decide (first.2.maxKey = exclusiveUpper)

/-- The lookup shared by `keyBelongsToMe` and `keyIsPending`: false for an empty map, otherwise
`rangeContains` of the entry before `upper_bound(key)`, or of the first entry when there is none
before it. -/
def rangeMapLookup (key : K) : Bool :=
  if ranges.entries.length ≤ 0 then false
  else
    let it := ranges.upperBound key
    let it := if it ≠ 0 then it - 1 else it
    match ranges.entries[it]? with
    | some (min, info) => rangeContains min info.maxKey key
    | none => false

end RangeMaps

/-- The state of a `CollectionMetadata`: the collection and shard versions, the shard key pattern,
and the maps of pending chunks, of owned chunks and of their coalesced ranges. `_keyFields`, the
parsed pattern, is left out. -/
structure CollectionMetadata (K : Type) [LinearOrder K] where
  collVersion : ChunkVersion
  shardVersion : ChunkVersion
  keyPattern : BSONObj
  pendingMap : OrdMap K (CachedChunkInfo K)
  chunksMap : OrdMap K (CachedChunkInfo K)
  rangesMap : OrdMap K (CachedChunkInfo K)

namespace CollectionMetadata

/-- `CollectionMetadata()`. -/
def init : CollectionMetadata K :=
  ⟨.zero, .zero, [], .empty, .empty, .empty⟩

/-- The loop of `fillRanges` over the chunks left. `(min, max)` is the range being grown, none
before the first chunk (the source's `min.isEmpty()`: no chunk has the empty key). A chunk that
starts where the range ends extends it; any other closes it into `_rangesMap`. -/
def fillRangesLoop (rangesMap : OrdMap K (CachedChunkInfo K)) :
    Option (K × K) → List (K × CachedChunkInfo K) → OrdMap K (CachedChunkInfo K)
  | none, [] => rangesMap
  | some (min, max), [] => rangesMap.insert (min, ⟨max, .IGNORED⟩)
  | none, (currMin, info) :: rest => fillRangesLoop rangesMap (some (currMin, info.maxKey)) rest
  | some (min, max), (currMin, info) :: rest =>
      if max = currMin then fillRangesLoop rangesMap (some (min, info.maxKey)) rest
      else fillRangesLoop (rangesMap.insert (min, ⟨max, .IGNORED⟩)) (some (currMin, info.maxKey)) rest

/-- `fillRanges`: nothing without chunks. The loop has then seen a chunk, so the
`invariant(!min.isEmpty())` after it holds. -/
def fillRanges (md : CollectionMetadata K) : CollectionMetadata K :=
  if md.chunksMap.entries.isEmpty then md
  else { md with rangesMap := fillRangesLoop md.rangesMap none md.chunksMap.entries }

/-- `isValid`. -/
def isValid (md : CollectionMetadata K) : Bool :=
  if md.shardVersion.combined > md.collVersion.combined then false
  else if md.collVersion.majorVersion = 0 then false
  else if md.collVersion.epoch ≠ md.shardVersion.epoch then false
  else if md.shardVersion.majorVersion > 0 then
    -- must be chunks
    !(md.rangesMap.entries.length = 0 || md.chunksMap.entries.length = 0)
  else
    -- no chunks
    !(decide (md.shardVersion.minorVersion > 0)) &&
      !(decide (md.rangesMap.entries.length > 0) || decide (md.chunksMap.entries.length > 0))

/-- `keyBelongsToMe`: every key of a collection that is not sharded belongs here. -/
def keyBelongsToMe (md : CollectionMetadata K) (key : K) : Bool :=
  if md.keyPattern.isEmpty then true
  else rangeMapLookup md.rangesMap key

/-- `keyIsPending`: no key of a collection that is not sharded is pending. -/
def keyIsPending (md : CollectionMetadata K) (key : K) : Bool :=
  if md.keyPattern.isEmpty then false
  else rangeMapLookup md.pendingMap key

/-- `getNextChunk`: the chunk before `upper_bound(lookupKey)` when it reaches past the key, else
the chunk at `upper_bound(lookupKey)`, as its min key, max key and version. -/
def getNextChunk (md : CollectionMetadata K) (lookupKey : K) : Option (K × CachedChunkInfo K) :=
  let upper := md.chunksMap.upperBound lookupKey
  let lower := if upper ≠ 0 then md.chunksMap.entries[upper - 1]? else none
  match lower with
  | some chunk =>
      if chunk.2.maxKey > lookupKey then some chunk else md.chunksMap.entries[upper]?
  | none => md.chunksMap.entries[upper]?

/-- `getDifferentChunk`: the first chunk whose min key is not `chunkMinKey`. -/
def getDifferentChunk (md : CollectionMetadata K) (chunkMinKey : K) :
    Option (K × CachedChunkInfo K) :=
  md.chunksMap.entries.find? fun chunk => chunk.1 ≠ chunkMinKey

/-- `clonePlusChunk`: none where an `invariant` fails, which ends the process. The clone starts
as `CollectionMetadata()`, so `fillRanges` fills an empty `_rangesMap`. -/
def clonePlusChunk (md : CollectionMetadata K) (minKey maxKey : K) (chunkVersion : ChunkVersion) :
    Option (CollectionMetadata K) :=
  if chunkVersion.epoch ≠ md.shardVersion.epoch then none
  else if !chunkVersion.isSet then none
  else if ¬chunkVersion.combined > md.shardVersion.combined then none
  else if ¬minKey < maxKey then none
  else if rangeMapOverlaps md.chunksMap minKey maxKey then none
  else
    let metadata : CollectionMetadata K :=
      { (init : CollectionMetadata K) with
        keyPattern := md.keyPattern
        pendingMap := md.pendingMap
        chunksMap := md.chunksMap.insert (minKey, ⟨maxKey, chunkVersion⟩)
        shardVersion := chunkVersion
        collVersion :=
          if chunkVersion.combined > md.collVersion.combined then chunkVersion else md.collVersion }
    let metadata := metadata.fillRanges
    if metadata.isValid then some metadata else none

/-- `cloneMinusPending`: the pending chunk must be in the pending map with exactly its bounds. -/
def cloneMinusPending (md : CollectionMetadata K) (chunk : ChunkType K) :
    Option (CollectionMetadata K) :=
  if !rangeMapContains md.pendingMap chunk.min chunk.max then none
  else
    let metadata : CollectionMetadata K :=
      { (init : CollectionMetadata K) with
        keyPattern := md.keyPattern
        pendingMap := md.pendingMap.erase chunk.min
        chunksMap := md.chunksMap
        rangesMap := md.rangesMap
        shardVersion := md.shardVersion
        collVersion := md.collVersion }
    if metadata.isValid then some metadata else none

/-- `clonePlusPending`: the new pending chunk may not overlap an owned chunk; the pending chunks it
overlaps are dropped, since the migration being started is authoritative, and it is recorded
with the `IGNORED` version. -/
def clonePlusPending (md : CollectionMetadata K) (chunk : ChunkType K) :
    Option (CollectionMetadata K) :=
  if rangeMapOverlaps md.chunksMap chunk.min chunk.max then none
  else
    let pendingMap :=
      if rangeMapOverlaps md.pendingMap chunk.min chunk.max then
        (getRangeMapOverlap md.pendingMap chunk.min chunk.max).foldl
          (fun pending range => pending.erase range.1) md.pendingMap
      else md.pendingMap
    let metadata : CollectionMetadata K :=
      { (init : CollectionMetadata K) with
        keyPattern := md.keyPattern
        pendingMap := pendingMap.insert (chunk.min, ⟨chunk.max, .IGNORED⟩)
        chunksMap := md.chunksMap
        rangesMap := md.rangesMap
        shardVersion := md.shardVersion
        collVersion := md.collVersion }
    if metadata.isValid then some metadata else none

/-- The entries before and at `upper_bound(key)` of a map, as `getNextOrphanRange` finds them;
none for `end()`, and both none for an empty map. -/
def neighbours (ranges : OrdMap K (CachedChunkInfo K)) (key : K) :
    Option (K × CachedChunkInfo K) × Option (K × CachedChunkInfo K) :=
  if ranges.entries.isEmpty then (none, none)
  else
    let upper := ranges.upperBound key
    (if upper ≠ 0 then ranges.entries[upper - 1]? else none, ranges.entries[upper]?)

/-- Where `getNextOrphanRange` continues when the entry before `upper_bound(lookupKey)` reaches
past the key: that entry's max key. -/
def continueAfter (lower : Option (K × CachedChunkInfo K)) (lookupKey : K) : Option K :=
  match lower with
  | some entry => if entry.2.maxKey > lookupKey then some entry.2.maxKey else none
  | none => none

/-- `range->minKey` raised to the max key of the entry before the lookup key, when that is
above it. -/
def raiseMinKey (bound : K) : Option (K × CachedChunkInfo K) → K
  | some entry => if entry.2.maxKey > bound then entry.2.maxKey else bound
  | none => bound

/-- `range->maxKey` lowered to the min key of the entry at `upper_bound` of the lookup key, when
that is below it. -/
def lowerMaxKey (bound : K) : Option (K × CachedChunkInfo K) → K
  | some entry => if entry.1 < bound then entry.1 else bound
  | none => bound

/-- The bounds `getNextOrphanRange` reports around a key no chunk or pending range holds:
`getMinKey()` raised to the max keys of the entries before it, `getMaxKey()` lowered to the min
keys of the entries after it, chunks first, then pending ranges. -/
def orphanBounds (minKey maxKey : K)
    (chunkNeighbours pendingNeighbours :
      Option (K × CachedChunkInfo K) × Option (K × CachedChunkInfo K)) : K × K :=
  (raiseMinKey (raiseMinKey minKey chunkNeighbours.1) pendingNeighbours.1,
    lowerMaxKey (lowerMaxKey maxKey chunkNeighbours.2) pendingNeighbours.2)

/-- The loop of `getNextOrphanRange` with `fuel` turns left: a key inside a chunk, or else inside
a pending range, moves to that range's max key; a key in neither gives the orphan range around
it. -/
def orphanRangeLoop (md : CollectionMetadata K) (minKey maxKey : K) : Nat → K → Option (K × K)
  | 0, _ => none
  | fuel + 1, lookupKey =>
      if lookupKey < maxKey then
        match continueAfter (neighbours md.chunksMap lookupKey).1 lookupKey with
        | some next => orphanRangeLoop md minKey maxKey fuel next
        | none =>
            match continueAfter (neighbours md.pendingMap lookupKey).1 lookupKey with
            | some next => orphanRangeLoop md minKey maxKey fuel next
            | none =>
                some (orphanBounds minKey maxKey (neighbours md.chunksMap lookupKey)
                  (neighbours md.pendingMap lookupKey))
      else none

/-- `getNextOrphanRange`, for `getMinKey()` and `getMaxKey()`, the keys of the pattern's fields all
`MinKey` or all `MaxKey`: the range's bounds, or none where the source returns false. Each turn of
the loop moves past one chunk or pending range, so one turn more than there are of them is
enough. -/
def getNextOrphanRange (md : CollectionMetadata K) (getMinKey getMaxKey origLookupKey : K) :
    Option (K × K) :=
  if md.keyPattern.isEmpty then none
  else
    orphanRangeLoop md getMinKey getMaxKey
      (md.chunksMap.entries.length + md.pendingMap.entries.length + 1) origLookupKey

end CollectionMetadata

section Lookups

variable {ranges : OrdMap K (CachedChunkInfo K)}

theorem rangeOverlaps_iff {min max lo hi : K} :
    rangeOverlaps min max lo hi = true ↔ min < hi ∧ lo < max := by
  simp only [rangeOverlaps, Bool.and_eq_true, decide_eq_true_eq]
  exact and_comm

/-- The positions between the overlap bounds are those of the entries that meet the range. -/
theorem rangeMapOverlapBounds_spec (intervals : ranges.Apart CachedChunkInfo.maxKey) {lo hi : K}
    {i : Nat} (h : i < ranges.entries.length) :
    ((rangeMapOverlapBounds ranges lo hi).1 ≤ i ∧ i < (rangeMapOverlapBounds ranges lo hi).2) ↔
      rangeOverlaps (ranges.entries[i]).1 (ranges.entries[i]).2.maxKey lo hi = true := by
  rw [rangeOverlaps_iff, intervals.meets_iff h]
  simp only [rangeMapOverlapBounds]
  split_ifs with stepped
  · have prevIn : ranges.lowerBound lo - 1 < ranges.entries.length := by
      have bounded : ranges.lowerBound lo ≤ ranges.entries.length := ranges.boundBy_le_length
      omega
    rw [List.getElem?_eq_getElem prevIn]
    dsimp only
    split_ifs with ended
    · -- the entry before ends at or before `lo`: it is not one that reaches past `lo`
      constructor
      · rintro ⟨later, below⟩
        exact ⟨below, .inl later⟩
      · rintro ⟨below, later | ⟨last, reaches⟩⟩
        · exact ⟨later, below⟩
        · have same : i = ranges.lowerBound lo - 1 := by omega
          subst same
          exact absurd reaches (not_lt.mpr ended)
    · constructor
      · rintro ⟨later, below⟩
        refine ⟨below, ?_⟩
        by_cases atOrAfter : ranges.lowerBound lo ≤ i
        · exact .inl atOrAfter
        · have same : i = ranges.lowerBound lo - 1 := by omega
          subst same
          exact .inr ⟨by omega, lt_of_not_ge ended⟩
      · rintro ⟨below, later | ⟨last, -⟩⟩
        · exact ⟨by omega, below⟩
        · exact ⟨by omega, below⟩
  · -- no entry before `lower_bound(lo)`
    have zero : ranges.lowerBound lo = 0 := by simpa using stepped
    simp [zero]

/-- The overlap bounds are ordered when the range is. -/
theorem rangeMapOverlapBounds_le {lo hi : K} (ordered : lo ≤ hi) :
    (rangeMapOverlapBounds ranges lo hi).1 ≤ (rangeMapOverlapBounds ranges lo hi).2 := by
  have mono := ranges.lowerBound_mono ordered
  simp only [rangeMapOverlapBounds]
  split_ifs
  · split
    · split_ifs
      · exact mono
      · exact (Nat.sub_le _ 1).trans mono
    · exact mono
  · exact mono

/-- `rangeMapOverlaps` agrees with a test of every entry. -/
theorem rangeMapOverlaps_iff (intervals : ranges.Apart CachedChunkInfo.maxKey) {lo hi : K}
    (ordered : lo ≤ hi) :
    rangeMapOverlaps ranges lo hi = true ↔
      ∃ e ∈ ranges.entries, rangeOverlaps e.1 e.2.maxKey lo hi = true := by
  have bounded : (rangeMapOverlapBounds ranges lo hi).2 ≤ ranges.entries.length :=
    ranges.boundBy_le_length (p := fun k => decide (k < hi))
  have le : (rangeMapOverlapBounds ranges lo hi).1 ≤ (rangeMapOverlapBounds ranges lo hi).2 :=
    rangeMapOverlapBounds_le ordered
  simp only [rangeMapOverlaps, bne_iff_ne, ne_eq]
  constructor
  · -- the first position between the bounds holds an overlapping entry
    intro differ
    have first : (rangeMapOverlapBounds ranges lo hi).1 < ranges.entries.length := by omega
    exact ⟨_, List.getElem_mem first,
      (rangeMapOverlapBounds_spec intervals first).mp ⟨le_rfl, by omega⟩⟩
  · rintro ⟨e, member, overlaps⟩
    obtain ⟨i, h, rfl⟩ := List.getElem_of_mem member
    have within := (rangeMapOverlapBounds_spec intervals h).mpr overlaps
    omega

/-- `rangeMapContains` finds an entry with exactly the given bounds: no entry before it can
overlap the range, so it is the first one between the bounds. -/
theorem rangeMapContains_iff (intervals : ranges.Apart CachedChunkInfo.maxKey) {lo hi : K}
    (ordered : lo < hi) :
    rangeMapContains ranges lo hi = true ↔
      ∃ info, (lo, info) ∈ ranges.entries ∧ info.maxKey = hi := by
  constructor
  · intro contains
    simp only [rangeMapContains] at contains
    split at contains
    · cases contains
    · rename_i first found
      simp only [Bool.and_eq_true, decide_eq_true_eq] at contains
      obtain ⟨starts, ends⟩ := contains
      refine ⟨first.2, ?_, ends⟩
      rw [← starts]
      exact List.mem_of_getElem? found
  · rintro ⟨info, member, ends⟩
    obtain ⟨i, h, found⟩ := List.getElem_of_mem member
    have overlaps : rangeOverlaps (ranges.entries[i]).1 (ranges.entries[i]).2.maxKey lo hi := by
      rw [found, rangeOverlaps_iff, ends]
      exact ⟨ordered, ordered⟩
    have within := (rangeMapOverlapBounds_spec intervals h).mpr overlaps
    have first : (rangeMapOverlapBounds ranges lo hi).1 = i := by
      by_contra differ
      have earlier : (rangeMapOverlapBounds ranges lo hi).1 < i := by omega
      have firstIn : (rangeMapOverlapBounds ranges lo hi).1 < ranges.entries.length := by omega
      have firstOverlaps := (rangeMapOverlapBounds_spec intervals firstIn).mp ⟨le_rfl, by omega⟩
      rw [rangeOverlaps_iff] at firstOverlaps
      have ended := intervals.hi_le_of_lt h earlier
      rw [found] at ended
      exact absurd firstOverlaps.2 (not_lt.mpr ended)
    simp only [rangeMapContains, first, List.getElem?_eq_getElem h, found]
    simp [ends]

/-- `getRangeMapOverlap` lists the overlapping entries, in order. -/
theorem getRangeMapOverlap_eq (intervals : ranges.Apart CachedChunkInfo.maxKey) (lo hi : K) :
    getRangeMapOverlap ranges lo hi =
      (ranges.entries.filter fun e => rangeOverlaps e.1 e.2.maxKey lo hi).map
        fun e => (e.1, e.2.maxKey) := by
  simp only [getRangeMapOverlap]
  rw [drop_take_eq_filter (fun e => rangeOverlaps e.1 e.2.maxKey lo hi) ranges.entries _ _
    fun i h => (@rangeMapOverlapBounds_spec K _ ranges intervals lo hi i h).symm]

/-- The lookup of `keyBelongsToMe` and `keyIsPending` tells the keys in an entry's range. -/
theorem rangeMapLookup_iff (intervals : ranges.Apart CachedChunkInfo.maxKey) (key : K) :
    rangeMapLookup ranges key = true ↔ ranges.Covers CachedChunkInfo.maxKey key := by
  rw [intervals.covers_iff_floor]
  simp only [rangeMapLookup]
  split_ifs with empty stepped
  · have none : ranges.entries = [] := List.eq_nil_of_length_eq_zero (by omega)
    simp [none]
  · cases ranges.entries[ranges.upperBound key - 1]? with
    | none => simp
    | some e => simp [rangeContains]
  · -- no entry before `upper_bound`: the iterator stays at the front, as `upperBound key - 1` does
    have zero : ranges.upperBound key = 0 := by simpa using stepped
    simp only [zero, Nat.zero_sub]
    cases ranges.entries[0]? with
    | none => simp
    | some e => simp [rangeContains]

/-- Over ranges that are apart, the searches of `range_arithmetic`, which start from the
`lower_bound` of the map and step back at most once, find what a scan of every range finds. -/
theorem rangeMap_searches_eq_scan (intervals : ranges.Apart CachedChunkInfo.maxKey) {lo hi : K}
    (ordered : lo < hi) :
    getRangeMapOverlap ranges lo hi =
        (ranges.entries.filter fun e => rangeOverlaps e.1 e.2.maxKey lo hi).map
          (fun e => (e.1, e.2.maxKey)) ∧
      (rangeMapOverlaps ranges lo hi = true ↔
        ∃ e ∈ ranges.entries, e.1 < hi ∧ lo < e.2.maxKey) ∧
      (rangeMapContains ranges lo hi = true ↔
        ∃ info, (lo, info) ∈ ranges.entries ∧ info.maxKey = hi) ∧
      ∀ key, rangeMapLookup ranges key = true ↔
        ∃ e ∈ ranges.entries, e.1 ≤ key ∧ key < e.2.maxKey := by
  refine ⟨getRangeMapOverlap_eq intervals lo hi, ?_, rangeMapContains_iff intervals ordered,
    rangeMapLookup_iff intervals⟩
  rw [rangeMapOverlaps_iff intervals ordered.le]
  simp only [rangeOverlaps_iff]

/-- Two chunks, `[0, 10)` and `[20, 30)`. -/
def twoChunks : OrdMap Nat (CachedChunkInfo Nat) :=
  ⟨[(0, ⟨10, .IGNORED⟩), (20, ⟨30, .IGNORED⟩)], by decide⟩

theorem twoChunks_apart : twoChunks.Apart CachedChunkInfo.maxKey :=
  ⟨by decide, by decide⟩

theorem rangeMap_searches_twoChunks :
    getRangeMapOverlap twoChunks 5 25 =
        (twoChunks.entries.filter fun e => rangeOverlaps e.1 e.2.maxKey 5 25).map
          (fun e => (e.1, e.2.maxKey)) ∧
      (rangeMapOverlaps twoChunks 5 25 = true ↔
        ∃ e ∈ twoChunks.entries, e.1 < 25 ∧ 5 < e.2.maxKey) ∧
      (rangeMapContains twoChunks 5 25 = true ↔
        ∃ info, (5, info) ∈ twoChunks.entries ∧ info.maxKey = 25) ∧
      ∀ key, rangeMapLookup twoChunks key = true ↔
        ∃ e ∈ twoChunks.entries, e.1 ≤ key ∧ key < e.2.maxKey :=
  rangeMap_searches_eq_scan twoChunks_apart (by decide)

end Lookups

namespace CollectionMetadata

section Coalescing

/-- What the loop of `fillRanges` keeps while it grows the range `[min, max)`: the ranges closed
so far are apart with a gap after each and end before `min`, and the chunks left are in order,
apart, nonempty, and start at or after `max`. -/
structure Growing (rangesMap : OrdMap K (CachedChunkInfo K)) (min max : K)
    (rest : List (K × CachedChunkInfo K)) : Prop where
  closed : rangesMap.Apart CachedChunkInfo.maxKey
  separated : rangesMap.Separated CachedChunkInfo.maxKey
  closedBefore : ∀ e ∈ rangesMap.entries, e.2.maxKey < min
  nonempty : min < max
  chunks : rest.Pairwise fun c c' => c.1 < c'.1 ∧ c.2.maxKey ≤ c'.1
  chunksNonempty : ∀ c ∈ rest, c.1 < c.2.maxKey
  chunksAfter : ∀ c ∈ rest, max ≤ c.1

/-- The loop of `fillRanges` closes ranges that stay apart, with a gap after each, and cover the
keys of the ranges closed before, of the range being grown and of the chunks left. -/
theorem fillRangesLoop_spec :
    ∀ (rest : List (K × CachedChunkInfo K)) (rangesMap : OrdMap K (CachedChunkInfo K))
      (min max : K), Growing rangesMap min max rest →
      (fillRangesLoop rangesMap (some (min, max)) rest).Apart CachedChunkInfo.maxKey ∧
        (fillRangesLoop rangesMap (some (min, max)) rest).Separated CachedChunkInfo.maxKey ∧
        ∀ k, (fillRangesLoop rangesMap (some (min, max)) rest).Covers CachedChunkInfo.maxKey k ↔
          rangesMap.Covers CachedChunkInfo.maxKey k ∨ (min ≤ k ∧ k < max) ∨
            ∃ c ∈ rest, c.1 ≤ k ∧ k < c.2.maxKey
  | [], rangesMap, min, max, growing => by
      have closing := growing.closed.insert (min, ⟨max, .IGNORED⟩) growing.nonempty
        fun e member => (growing.closedBefore e member).le
      refine ⟨closing.1, growing.separated.insert growing.closed _ growing.closedBefore,
        fun k => ?_⟩
      rw [fillRangesLoop, closing.2]
      simp
  | (currMin, info) :: rest, rangesMap, min, max, growing => by
      have tail := List.pairwise_cons.mp growing.chunks
      have reaches : currMin < info.maxKey := growing.chunksNonempty _ List.mem_cons_self
      have after : max ≤ currMin := growing.chunksAfter _ List.mem_cons_self
      have restNonempty : ∀ c ∈ rest, c.1 < c.2.maxKey := fun c member =>
        growing.chunksNonempty c (List.mem_cons_of_mem _ member)
      have restAfter : ∀ c ∈ rest, info.maxKey ≤ c.1 := fun c member => (tail.1 c member).2
      rw [fillRangesLoop]
      split_ifs with adjacent
      · -- the chunk starts where the range ends: the range grows to the chunk's max key
        subst adjacent
        have grown := fillRangesLoop_spec rest rangesMap min info.maxKey
          ⟨growing.closed, growing.separated, growing.closedBefore,
            growing.nonempty.trans reaches, tail.2, restNonempty, restAfter⟩
        refine ⟨grown.1, grown.2.1, fun k => ?_⟩
        rw [grown.2.2, Ico_split growing.nonempty.le reaches.le]
        simp only [List.mem_cons, exists_eq_or_imp, or_assoc]
      · -- any other chunk starts after a gap: it closes the range, and starts the next one
        have gap : max < currMin := lt_of_le_of_ne after adjacent
        have before : ∀ e ∈ rangesMap.entries, e.2.maxKey ≤ min := fun e member =>
          (growing.closedBefore e member).le
        have closing := growing.closed.insert (min, ⟨max, .IGNORED⟩) growing.nonempty before
        have separated := growing.separated.insert growing.closed (min, ⟨max, .IGNORED⟩)
          growing.closedBefore
        have closedBefore : ∀ e ∈ (rangesMap.insert (min, ⟨max, .IGNORED⟩)).entries,
            e.2.maxKey < currMin := by
          intro e member
          rcases (growing.closed.mem_insert_of_after before).mp member with rfl | old
          · exact gap
          · exact (growing.closedBefore e old).trans (growing.nonempty.trans gap)
        have grown := fillRangesLoop_spec rest _ currMin info.maxKey
          ⟨closing.1, separated, closedBefore, reaches, tail.2, restNonempty, restAfter⟩
        refine ⟨grown.1, grown.2.1, fun k => ?_⟩
        rw [grown.2.2, closing.2]
        simp only [List.mem_cons, exists_eq_or_imp, or_assoc]

/-- `fillRanges` into an empty `_rangesMap`, over chunks that are apart, leaves ranges that are
apart with a gap after each, so that touching chunks share one range, and that hold exactly the
keys of the chunks. -/
theorem fillRanges_spec (md : CollectionMetadata K)
    (chunks : md.chunksMap.Apart CachedChunkInfo.maxKey) (fresh : md.rangesMap.entries = []) :
    md.fillRanges.rangesMap.Apart CachedChunkInfo.maxKey ∧
      md.fillRanges.rangesMap.Separated CachedChunkInfo.maxKey ∧
      ∀ k, md.fillRanges.rangesMap.Covers CachedChunkInfo.maxKey k ↔
        md.chunksMap.Covers CachedChunkInfo.maxKey k := by
  have freshApart : md.rangesMap.Apart CachedChunkInfo.maxKey := ⟨by simp [fresh], by simp [fresh]⟩
  have freshSeparated : md.rangesMap.Separated CachedChunkInfo.maxKey := by
    simp [OrdMap.Separated, fresh]
  have uncovered : ∀ k, ¬md.rangesMap.Covers CachedChunkInfo.maxKey k := by
    simp [OrdMap.Covers, fresh]
  unfold fillRanges
  cases entries : md.chunksMap.entries with
  | nil =>
      simp only [List.isEmpty_nil, if_true]
      refine ⟨freshApart, freshSeparated, fun k => ?_⟩
      simp only [uncovered, false_iff]
      simp [OrdMap.Covers, entries]
  | cons first rest =>
      have ordered := chunks.pairwise
      rw [entries] at ordered
      have grown := fillRangesLoop_spec rest md.rangesMap first.1 first.2.maxKey
        ⟨freshApart, freshSeparated, by simp [fresh], chunks.nonempty first (by simp [entries]),
          (List.pairwise_cons.mp ordered).2,
          fun c member => chunks.nonempty c (by simp [entries, member]),
          fun c member => ((List.pairwise_cons.mp ordered).1 c member).2⟩
      simp only [List.isEmpty_cons, Bool.false_eq_true, if_false]
      rw [fillRangesLoop]
      refine ⟨grown.1, grown.2.1, fun k => ?_⟩
      rw [grown.2.2]
      simp only [uncovered, false_or]
      simp [OrdMap.Covers, entries]

@[simp] theorem fillRanges_keyPattern (md : CollectionMetadata K) :
    md.fillRanges.keyPattern = md.keyPattern := by
  unfold fillRanges; split_ifs <;> rfl

@[simp] theorem fillRanges_pendingMap (md : CollectionMetadata K) :
    md.fillRanges.pendingMap = md.pendingMap := by
  unfold fillRanges; split_ifs <;> rfl

@[simp] theorem fillRanges_chunksMap (md : CollectionMetadata K) :
    md.fillRanges.chunksMap = md.chunksMap := by
  unfold fillRanges; split_ifs <;> rfl

@[simp] theorem fillRanges_collVersion (md : CollectionMetadata K) :
    md.fillRanges.collVersion = md.collVersion := by
  unfold fillRanges; split_ifs <;> rfl

@[simp] theorem fillRanges_shardVersion (md : CollectionMetadata K) :
    md.fillRanges.shardVersion = md.shardVersion := by
  unfold fillRanges; split_ifs <;> rfl

/-- The loop of `fillRanges` closes at least the range it grows. -/
theorem fillRangesLoop_ne_nil :
    ∀ (rest : List (K × CachedChunkInfo K)) (rangesMap : OrdMap K (CachedChunkInfo K))
      (range : K × K), (fillRangesLoop rangesMap (some range) rest).entries ≠ []
  | [], rangesMap, (min, max) => by
      rw [fillRangesLoop]
      exact rangesMap.insert_ne_nil _
  | (currMin, info) :: rest, rangesMap, (min, max) => by
      rw [fillRangesLoop]
      split_ifs
      · exact fillRangesLoop_ne_nil rest _ _
      · exact fillRangesLoop_ne_nil rest _ _

/-- `fillRanges` into an empty `_rangesMap` leaves ranges exactly when there are chunks. -/
theorem fillRanges_rangesMap_eq_nil (md : CollectionMetadata K)
    (fresh : md.rangesMap.entries = []) :
    md.fillRanges.rangesMap.entries = [] ↔ md.chunksMap.entries = [] := by
  unfold fillRanges
  cases entries : md.chunksMap.entries with
  | nil => simp [fresh]
  | cons first rest =>
      simp only [List.isEmpty_cons, Bool.false_eq_true, if_false, reduceCtorEq, iff_false]
      rw [fillRangesLoop]
      exact fillRangesLoop_ne_nil rest _ _

/-- `keyBelongsToMe` of a sharded collection tells the keys of the ranges. -/
theorem keyBelongsToMe_iff (md : CollectionMetadata K) (sharded : md.keyPattern ≠ [])
    (ranges : md.rangesMap.Apart CachedChunkInfo.maxKey) (key : K) :
    md.keyBelongsToMe key = true ↔ md.rangesMap.Covers CachedChunkInfo.maxKey key := by
  rw [keyBelongsToMe, if_neg (by simpa using sharded), rangeMapLookup_iff ranges]

/-- `keyIsPending` of a sharded collection tells the keys of the pending chunks. -/
theorem keyIsPending_iff (md : CollectionMetadata K) (sharded : md.keyPattern ≠ [])
    (pending : md.pendingMap.Apart CachedChunkInfo.maxKey) (key : K) :
    md.keyIsPending key = true ↔ md.pendingMap.Covers CachedChunkInfo.maxKey key := by
  rw [keyIsPending, if_neg (by simpa using sharded), rangeMapLookup_iff pending]

/-- For a sharded collection whose chunks are apart, `fillRanges` coalesces them into ranges with
a gap after each, and `keyBelongsToMe` then tells exactly the keys of the chunks. -/
theorem keyBelongsToMe_fillRanges (md : CollectionMetadata K) (sharded : md.keyPattern ≠ [])
    (chunks : md.chunksMap.Apart CachedChunkInfo.maxKey) (fresh : md.rangesMap.entries = []) :
    md.fillRanges.rangesMap.Separated CachedChunkInfo.maxKey ∧
      ∀ key, md.fillRanges.keyBelongsToMe key = true ↔
        md.chunksMap.Covers CachedChunkInfo.maxKey key := by
  obtain ⟨apart, separated, covers⟩ := fillRanges_spec md chunks fresh
  refine ⟨separated, fun key => ?_⟩
  rw [keyBelongsToMe_iff _ (by simpa using sharded) apart, covers]

/-- Chunks `[0, 10)`, `[10, 20)` and `[30, 40)` of a collection sharded on `a`. -/
def threeChunks : CollectionMetadata Nat :=
  { (init : CollectionMetadata Nat) with
    keyPattern := [("a", .scalar (.numberInt 1))]
    chunksMap := ⟨[(0, ⟨10, .IGNORED⟩), (10, ⟨20, .IGNORED⟩), (30, ⟨40, .IGNORED⟩)], by decide⟩ }

theorem keyBelongsToMe_fillRanges_threeChunks :
    threeChunks.fillRanges.rangesMap.Separated CachedChunkInfo.maxKey ∧
      ∀ key, threeChunks.fillRanges.keyBelongsToMe key = true ↔
        threeChunks.chunksMap.Covers CachedChunkInfo.maxKey key :=
  keyBelongsToMe_fillRanges threeChunks (by decide) ⟨by decide, by decide⟩ rfl

/-- The two touching chunks share one range. -/
example : threeChunks.fillRanges.rangesMap.entries.map (fun e => (e.1, e.2.maxKey)) =
    [(0, 20), (30, 40)] := by
  decide

end Coalescing

end CollectionMetadata

end FastMongo.Sharding

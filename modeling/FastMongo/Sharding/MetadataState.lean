import FastMongo.Lib.Reachability
import FastMongo.Sharding.CollectionMetadata

/-!
The metadata a shard keeps between refreshes, as a state machine. `MetadataManager` swaps its
`CollectionMetadata` for a clone: `clonePlusPending` when a migration into the shard begins,
`cloneMinusPending` when one is forgotten; `clonePlusChunk` adds an owned chunk (the unit tests
build their metadata with it). Each clone `invariant`s its preconditions and then that the clone
`isValid`; a failed `invariant` is a `none` here.

The invariant `WellFormed` is what the lookups of `CollectionMetadata` need: the chunk ranges and
the pending ranges each do not overlap, the coalesced ranges hold exactly the chunks' keys, and
the metadata is valid. Every clone keeps it, so every metadata reached from a well-formed one by
any sequence of clones is well formed, and `keyBelongsToMe` there tells exactly the keys of the
owned chunks; no clone gives up an owned key or moves a version back. From a well-formed
metadata the pending clones fail only on their own preconditions, never on the final `isValid`,
and `clonePlusChunk` fails there only for a chunk version whose major part is not positive.
-/

namespace FastMongo.Sharding

open RangeMap

variable {K : Type} [LinearOrder K]

namespace CollectionMetadata

/-- What every metadata a shard keeps satisfies. -/
structure WellFormed (md : CollectionMetadata K) : Prop where
  chunks : md.chunksMap.Apart CachedChunkInfo.maxKey
  pending : md.pendingMap.Apart CachedChunkInfo.maxKey
  ranges : md.rangesMap.Apart CachedChunkInfo.maxKey
  coalesced : ∀ k, md.rangesMap.Covers CachedChunkInfo.maxKey k ↔
    md.chunksMap.Covers CachedChunkInfo.maxKey k
  valid : md.isValid = true

end CollectionMetadata

/-- `majorVersion` is zero exactly below `2^32`: above it, the two's complement reading of the
high half is positive or negative, never zero. -/
theorem ChunkVersion.majorVersion_eq_zero_iff (v : ChunkVersion) :
    v.majorVersion = 0 ↔ v.combined.toNat < 2 ^ 32 := by
  have bound := v.combined.toNat_lt
  simp only [ChunkVersion.majorVersion, toIntValue]
  split_ifs <;> omega

/-- `majorVersion` is positive exactly from `2^32` up to the sign bit. -/
theorem ChunkVersion.majorVersion_pos_iff (v : ChunkVersion) :
    0 < v.majorVersion ↔ 2 ^ 32 ≤ v.combined.toNat ∧ v.combined.toNat < 2 ^ 63 := by
  have bound := v.combined.toNat_lt
  simp only [ChunkVersion.majorVersion, toIntValue]
  split_ifs <;> omega

/-- `majorVersion` is not negative exactly below the sign bit. -/
theorem ChunkVersion.majorVersion_nonneg_iff (v : ChunkVersion) :
    0 ≤ v.majorVersion ↔ v.combined.toNat < 2 ^ 63 := by
  have bound := v.combined.toNat_lt
  simp only [ChunkVersion.majorVersion, toIntValue]
  split_ifs <;> omega

namespace CollectionMetadata

section Validity

variable {md : CollectionMetadata K}

/-- What `isValid` checks of the versions. -/
theorem versions_of_isValid (valid : md.isValid = true) :
    md.shardVersion.combined ≤ md.collVersion.combined ∧ md.collVersion.majorVersion ≠ 0 ∧
      md.collVersion.epoch = md.shardVersion.epoch := by
  unfold isValid at valid
  split_ifs at valid with above zero epochs <;>
    exact ⟨UInt64.not_lt.mp above, zero, not_not.mp epochs⟩

/-- With chunks and ranges, `isValid` checks the order and the epochs of the versions and that
both major versions are set. -/
theorem isValid_eq_of_chunks (ranges : md.rangesMap.entries ≠ [])
    (chunks : md.chunksMap.entries ≠ []) :
    md.isValid = (decide (md.shardVersion.combined ≤ md.collVersion.combined) &&
      decide (md.collVersion.majorVersion ≠ 0) &&
      decide (md.collVersion.epoch = md.shardVersion.epoch) &&
      decide (0 < md.shardVersion.majorVersion)) := by
  have rangesLength : md.rangesMap.entries.length ≠ 0 := by simpa using ranges
  have chunksLength : md.chunksMap.entries.length ≠ 0 := by simpa using chunks
  unfold isValid
  split_ifs with above zero epochs shardMajor
  · simp [UInt64.not_le.mpr above]
  · simp [zero]
  · simp [epochs]
  · simp [UInt64.not_lt.mp above, zero, not_not.mp epochs, shardMajor, rangesLength, chunksLength]
  · -- a metadata without a major version must have no chunks
    simp [shardMajor, Nat.pos_of_ne_zero chunksLength]

/-- `isValid` reads only the versions and the chunk and range maps. -/
theorem isValid_congr {md' : CollectionMetadata K} (coll : md'.collVersion = md.collVersion)
    (shard : md'.shardVersion = md.shardVersion) (chunks : md'.chunksMap = md.chunksMap)
    (ranges : md'.rangesMap = md.rangesMap) : md'.isValid = md.isValid := by
  simp only [isValid, coll, shard, chunks, ranges]

/-- A valid metadata with chunks has a shard version with a positive major version. -/
theorem majorVersion_pos_of_isValid (valid : md.isValid = true)
    (chunks : md.chunksMap.entries ≠ []) : 0 < md.shardVersion.majorVersion := by
  have chunksLength : md.chunksMap.entries.length ≠ 0 := by simpa using chunks
  unfold isValid at valid
  split_ifs at valid with above zero epochs positive
  · exact positive
  · simp [Nat.pos_of_ne_zero chunksLength] at valid

/-- `isValid` of versions in order and of one epoch, with a collection major version, and either
a shard version with a positive major version over chunks or the zero one over none. -/
theorem isValid_of_versions (le : md.shardVersion.combined ≤ md.collVersion.combined)
    (collMajor : md.collVersion.majorVersion ≠ 0)
    (epochs : md.collVersion.epoch = md.shardVersion.epoch)
    (ranges : md.rangesMap.entries = [] ↔ md.chunksMap.entries = [])
    (owned : md.chunksMap.entries ≠ [] → 0 < md.shardVersion.majorVersion)
    (unowned : md.chunksMap.entries = [] → md.shardVersion.combined = 0) : md.isValid = true := by
  by_cases chunks : md.chunksMap.entries = []
  · have zero := unowned chunks
    have major : md.shardVersion.majorVersion = 0 :=
      (ChunkVersion.majorVersion_eq_zero_iff _).mpr (by simp [zero])
    unfold isValid
    simp [collMajor, epochs, major, ChunkVersion.minorVersion, zero, chunks, ranges.mpr chunks]
  · rw [isValid_eq_of_chunks (mt ranges.mp chunks) chunks]
    simp [le, collMajor, epochs, owned chunks]

end Validity

section Clones

variable {md md' : CollectionMetadata K}

/-- A chunk range meets no owned chunk when `rangeMapOverlaps` says so. -/
theorem disjoint_of_not_overlaps {ranges : OrdMap K (CachedChunkInfo K)}
    (intervals : ranges.Apart CachedChunkInfo.maxKey) {lo hi : K} (ordered : lo ≤ hi)
    (clear : rangeMapOverlaps ranges lo hi = false) :
    ∀ e ∈ ranges.entries, ¬(e.1 < hi ∧ lo < e.2.maxKey) := by
  intro e member meets
  have overlaps := (rangeMapOverlaps_iff intervals ordered).mpr
    ⟨e, member, rangeOverlaps_iff.mpr meets⟩
  rw [clear] at overlaps
  cases overlaps

/-- What a `clonePlusChunk` that returns has checked, and the clone: the chunk inserted, the
shard version moved to the chunk's, and the ranges filled afresh. -/
theorem clonePlusChunk_inv {minKey maxKey : K} {chunkVersion : ChunkVersion}
    (cloned : md.clonePlusChunk minKey maxKey chunkVersion = some md') :
    chunkVersion.epoch = md.shardVersion.epoch ∧ md.shardVersion.combined < chunkVersion.combined ∧
      minKey < maxKey ∧ rangeMapOverlaps md.chunksMap minKey maxKey = false ∧
      md'.isValid = true ∧
      md' = ({ (init : CollectionMetadata K) with
        keyPattern := md.keyPattern
        pendingMap := md.pendingMap
        chunksMap := md.chunksMap.insert (minKey, ⟨maxKey, chunkVersion⟩)
        shardVersion := chunkVersion
        collVersion :=
          if chunkVersion.combined > md.collVersion.combined then chunkVersion
          else md.collVersion }).fillRanges := by
  unfold CollectionMetadata.clonePlusChunk at cloned
  dsimp only at cloned
  -- keep the new collection version whole, so that only the checks are split
  generalize collEq : (if chunkVersion.combined > md.collVersion.combined then chunkVersion
    else md.collVersion) = collVersion at cloned
  split_ifs at cloned with epoch unset newer ordered overlaps valid
  obtain rfl := Option.some.inj cloned
  subst collEq
  exact ⟨by simpa using epoch, by simpa using newer, ordered, by simpa using overlaps, valid, rfl⟩

/-- `clonePlusChunk` keeps the invariant and adds the new chunk's keys to the owned ones. -/
theorem WellFormed.clonePlusChunk (wellFormed : md.WellFormed) {minKey maxKey : K}
    {chunkVersion : ChunkVersion} (cloned : md.clonePlusChunk minKey maxKey chunkVersion = some md') :
    md'.WellFormed ∧ md'.keyPattern = md.keyPattern ∧ md'.pendingMap = md.pendingMap ∧
      ∀ k, md'.chunksMap.Covers CachedChunkInfo.maxKey k ↔
        md.chunksMap.Covers CachedChunkInfo.maxKey k ∨ (minKey ≤ k ∧ k < maxKey) := by
  obtain ⟨-, -, ordered, clear, valid, rfl⟩ := clonePlusChunk_inv cloned
  have inserted := wellFormed.chunks.insert_of_disjoint (minKey, ⟨maxKey, chunkVersion⟩)
    ordered (disjoint_of_not_overlaps wellFormed.chunks ordered.le clear)
  -- the clone starts from empty ranges, which `fillRanges` then coalesces from the chunks
  refine ⟨⟨by simpa using inserted.1, by simpa using wellFormed.pending,
    (fillRanges_spec _ inserted.1 rfl).1, fun k => ?_, valid⟩, by simp, by simp,
    by simpa using inserted.2⟩
  rw [fillRanges_chunksMap]
  exact (fillRanges_spec _ inserted.1 rfl).2.2 k

/-- From a well-formed metadata, `clonePlusChunk` returns exactly when its preconditions hold and
the chunk's major version is positive: with a new chunk and a major version that is not, the
final `invariant(isValid())` fails. -/
theorem clonePlusChunk_isSome (wellFormed : md.WellFormed) (minKey maxKey : K)
    (chunkVersion : ChunkVersion) :
    (md.clonePlusChunk minKey maxKey chunkVersion).isSome = true ↔
      chunkVersion.epoch = md.shardVersion.epoch ∧ chunkVersion.isSet = true ∧
        md.shardVersion.combined < chunkVersion.combined ∧ minKey < maxKey ∧
        rangeMapOverlaps md.chunksMap minKey maxKey = false ∧ 0 < chunkVersion.majorVersion := by
  have isSet : md.shardVersion.combined < chunkVersion.combined → chunkVersion.isSet = true :=
    fun newer => by simpa [ChunkVersion.isSet] using UInt64.lt_of_le_of_lt UInt64.zero_le newer
  constructor
  · intro returned
    obtain ⟨md', cloned⟩ := Option.isSome_iff_exists.mp returned
    obtain ⟨epoch, newer, ordered, clear, valid, same⟩ := clonePlusChunk_inv cloned
    obtain ⟨kept, -, -, covers⟩ := wellFormed.clonePlusChunk cloned
    have shard : md'.shardVersion = chunkVersion := by rw [same]; simp
    -- the clone holds the new chunk, so `isValid` took its branch with chunks
    have covered := (covers minKey).mpr (Or.inr ⟨le_rfl, ordered⟩)
    rw [isValid_eq_of_chunks ((kept.coalesced minKey).mpr covered).ne_nil covered.ne_nil] at valid
    simp only [Bool.and_eq_true, decide_eq_true_eq, shard] at valid
    exact ⟨epoch, isSet newer, newer, ordered, clear, valid.2⟩
  · rintro ⟨epoch, -, newer, ordered, clear, major⟩
    obtain ⟨-, collMajor, collEpoch⟩ := versions_of_isValid wellFormed.valid
    have inserted := wellFormed.chunks.insert_of_disjoint (minKey, ⟨maxKey, chunkVersion⟩)
      ordered (disjoint_of_not_overlaps wellFormed.chunks ordered.le clear)
    have covered := (inserted.2 minKey).mpr (Or.inr ⟨le_rfl, ordered⟩)
    unfold CollectionMetadata.clonePlusChunk
    simp only [epoch, isSet newer, newer, ordered, clear, ne_eq, not_true_eq_false, if_false,
      gt_iff_lt, Bool.not_true, Bool.false_eq_true]
    refine Option.isSome_ite.mpr ?_
    rw [isValid_eq_of_chunks (((fillRanges_spec _ inserted.1 rfl).2.2 minKey).mpr covered).ne_nil
      (by simpa using covered.ne_nil)]
    simp only [fillRanges_shardVersion, fillRanges_collVersion, Bool.and_eq_true,
      decide_eq_true_eq, and_assoc]
    -- the collection version is the chunk's when that is newer, else it stays
    split_ifs with above
    · exact ⟨UInt64.le_refl _, major.ne', rfl, major⟩
    · exact ⟨UInt64.not_lt.mp above, collMajor, collEpoch.trans epoch.symm, major⟩

/-- The pending chunks `clonePlusPending` keeps before it adds the new one: those that do not
overlap it. -/
theorem mem_clonePlusPending_kept (pending : md.pendingMap.Apart CachedChunkInfo.maxKey)
    (chunk : ChunkType K) (e : K × CachedChunkInfo K) :
    e ∈ (if rangeMapOverlaps md.pendingMap chunk.min chunk.max then
        (getRangeMapOverlap md.pendingMap chunk.min chunk.max).foldl
          (fun pending range => pending.erase range.1) md.pendingMap
      else md.pendingMap).entries ↔
      e ∈ md.pendingMap.entries ∧ ¬(e.1 < chunk.max ∧ chunk.min < e.2.maxKey) := by
  split_ifs with overlaps
  · rw [OrdMap.mem_foldl_erase (fun range : K × K => range.1), getRangeMapOverlap_eq pending]
    simp only [List.forall_mem_map, List.mem_filter, and_imp]
    constructor
    · rintro ⟨member, notErased⟩
      exact ⟨member, fun meets => notErased e member (rangeOverlaps_iff.mpr meets) rfl⟩
    · rintro ⟨member, apart⟩
      refine ⟨member, fun e' member' meets same => apart ?_⟩
      -- the erased key is that of an overlapping entry, which is `e` itself
      rw [← md.pendingMap.eq_of_key_eq member' member same.symm]
      exact rangeOverlaps_iff.mp meets
  · have clear : rangeMapOverlaps md.pendingMap chunk.min chunk.max = false := by
      simpa using overlaps
    exact ⟨fun member => ⟨member, disjoint_of_not_overlaps pending chunk.min_lt_max.le clear e
      member⟩, fun kept => kept.1⟩

/-- `clonePlusPending` keeps the invariant, changes only the pending chunks, and makes the new
chunk pending in place of the pending chunks it overlaps. -/
theorem WellFormed.clonePlusPending (wellFormed : md.WellFormed) {chunk : ChunkType K}
    (cloned : md.clonePlusPending chunk = some md') :
    md'.WellFormed ∧ md' = { md with pendingMap := md'.pendingMap } ∧
      ∀ k, md'.pendingMap.Covers CachedChunkInfo.maxKey k ↔ (chunk.min ≤ k ∧ k < chunk.max) ∨
        ∃ e ∈ md.pendingMap.entries, ¬(e.1 < chunk.max ∧ chunk.min < e.2.maxKey) ∧
          e.1 ≤ k ∧ k < e.2.maxKey := by
  unfold CollectionMetadata.clonePlusPending at cloned
  dsimp only at cloned
  have kept := mem_clonePlusPending_kept wellFormed.pending chunk
  generalize (if rangeMapOverlaps md.pendingMap chunk.min chunk.max then
      (getRangeMapOverlap md.pendingMap chunk.min chunk.max).foldl
        (fun pending range => pending.erase range.1) md.pendingMap
    else md.pendingMap) = keptMap at cloned kept
  split_ifs at cloned with overlaps valid
  obtain rfl := Option.some.inj cloned
  have keptApart := wellFormed.pending.mono fun e member => ((kept e).mp member).1
  have inserted := keptApart.insert_of_disjoint (chunk.min, ⟨chunk.max, .IGNORED⟩) chunk.min_lt_max
    fun e member => ((kept e).mp member).2
  refine ⟨⟨wellFormed.chunks, inserted.1, wellFormed.ranges, wellFormed.coalesced, valid⟩, rfl,
    fun k => ?_⟩
  rw [inserted.2, or_comm]
  simp only [OrdMap.Covers, kept, and_assoc]

/-- `cloneMinusPending` keeps the invariant, changes only the pending chunks, and takes exactly
the chunk's keys out of the pending ones. -/
theorem WellFormed.cloneMinusPending (wellFormed : md.WellFormed) {chunk : ChunkType K}
    (cloned : md.cloneMinusPending chunk = some md') :
    md'.WellFormed ∧ md' = { md with pendingMap := md'.pendingMap } ∧
      ∀ k, md'.pendingMap.Covers CachedChunkInfo.maxKey k ↔
        md.pendingMap.Covers CachedChunkInfo.maxKey k ∧ ¬(chunk.min ≤ k ∧ k < chunk.max) := by
  unfold CollectionMetadata.cloneMinusPending at cloned
  dsimp only at cloned
  split_ifs at cloned with missing valid
  obtain rfl := Option.some.inj cloned
  obtain ⟨info, present, ends⟩ := (rangeMapContains_iff wellFormed.pending chunk.min_lt_max).mp
    (by simpa using missing)
  have erased : ∀ e, e ∈ (md.pendingMap.erase chunk.min).entries ↔
      e ∈ md.pendingMap.entries ∧ e.1 ≠ chunk.min := fun e => OrdMap.mem_erase _
  refine ⟨⟨wellFormed.chunks, wellFormed.pending.mono fun e member => ((erased e).mp member).1,
    wellFormed.ranges, wellFormed.coalesced, valid⟩, rfl, fun k => ?_⟩
  constructor
  · rintro ⟨e, member, starts, ends'⟩
    obtain ⟨old, other⟩ := (erased e).mp member
    refine ⟨⟨e, old, starts, ends'⟩, ?_⟩
    -- any other pending range lies wholly before or after the erased one
    rintro ⟨after, before⟩
    rcases lt_or_gt_of_ne other with below | above
    · have apart := wellFormed.pending.apart e old _ present below
      exact absurd (lt_of_lt_of_le ends' apart) (not_lt.mpr after)
    · have apart := wellFormed.pending.apart _ present e old above
      rw [ends] at apart
      exact absurd (lt_of_lt_of_le before apart) (not_lt.mpr starts)
  · rintro ⟨⟨e, member, starts, ends'⟩, outside⟩
    refine ⟨e, (erased e).mpr ⟨member, fun same => outside ?_⟩, starts, ends'⟩
    have entry := md.pendingMap.eq_of_key_eq member present same
    rw [entry] at starts ends'
    exact ⟨starts, ends ▸ ends'⟩

/-- From a well-formed metadata, `clonePlusPending` fails only on its precondition: the clone
keeps all that `isValid` reads. -/
theorem clonePlusPending_isSome (wellFormed : md.WellFormed) (chunk : ChunkType K) :
    (md.clonePlusPending chunk).isSome = !rangeMapOverlaps md.chunksMap chunk.min chunk.max := by
  cases overlaps : rangeMapOverlaps md.chunksMap chunk.min chunk.max
  · simp only [CollectionMetadata.clonePlusPending, overlaps, Bool.false_eq_true, if_false,
      Bool.not_false]
    exact Option.isSome_ite.mpr ((isValid_congr rfl rfl rfl rfl).trans wellFormed.valid)
  · simp [CollectionMetadata.clonePlusPending, overlaps]

/-- From a well-formed metadata, `cloneMinusPending` fails only on its precondition. -/
theorem cloneMinusPending_isSome (wellFormed : md.WellFormed) (chunk : ChunkType K) :
    (md.cloneMinusPending chunk).isSome = rangeMapContains md.pendingMap chunk.min chunk.max := by
  cases contained : rangeMapContains md.pendingMap chunk.min chunk.max
  · simp [CollectionMetadata.cloneMinusPending, contained]
  · simp only [CollectionMetadata.cloneMinusPending, contained, Bool.not_true, Bool.false_eq_true,
      if_false]
    exact Option.isSome_ite.mpr ((isValid_congr rfl rfl rfl rfl).trans wellFormed.valid)

end Clones

/-- The changes a shard makes to its metadata between refreshes. -/
inductive Change (K : Type) [LinearOrder K] where
  | plusChunk (minKey maxKey : K) (chunkVersion : ChunkVersion)
  | plusPending (chunk : ChunkType K)
  | minusPending (chunk : ChunkType K)

/-- The clone a change makes; none where the clone's `invariant` fails. -/
def applyChange (md : CollectionMetadata K) : Change K → Option (CollectionMetadata K)
  | .plusChunk minKey maxKey chunkVersion => md.clonePlusChunk minKey maxKey chunkVersion
  | .plusPending chunk => md.clonePlusPending chunk
  | .minusPending chunk => md.cloneMinusPending chunk

/-- When a change goes through: the preconditions its clone `invariant`s, and for a new chunk
a positive major version, without which the clone is not valid. -/
def enabled (md : CollectionMetadata K) : Change K → Bool
  | .plusChunk minKey maxKey chunkVersion =>
      decide (chunkVersion.epoch = md.shardVersion.epoch) && chunkVersion.isSet &&
        decide (md.shardVersion.combined < chunkVersion.combined) && decide (minKey < maxKey) &&
        !rangeMapOverlaps md.chunksMap minKey maxKey && decide (0 < chunkVersion.majorVersion)
  | .plusPending chunk => !rangeMapOverlaps md.chunksMap chunk.min chunk.max
  | .minusPending chunk => rangeMapContains md.pendingMap chunk.min chunk.max

/-- From a well-formed metadata a change fails exactly when it is not enabled. -/
theorem applyChange_isSome {md : CollectionMetadata K} (wellFormed : md.WellFormed)
    (change : Change K) : (md.applyChange change).isSome = md.enabled change := by
  cases change with
  | plusChunk minKey maxKey chunkVersion =>
      rw [Bool.eq_iff_iff, applyChange, clonePlusChunk_isSome wellFormed]
      simp only [enabled, Bool.and_eq_true, decide_eq_true_eq, Bool.not_eq_true', and_assoc]
  | plusPending chunk => exact clonePlusPending_isSome wellFormed chunk
  | minusPending chunk => exact cloneMinusPending_isSome wellFormed chunk

section Runs

variable {start md md' : CollectionMetadata K}

/-- What holds between a well-formed metadata and each metadata its clones reach: the invariant
and the key pattern, and nothing undone: owned keys stay owned, the versions do not go back, the
epoch stays. -/
structure Successor (start md : CollectionMetadata K) : Prop where
  wellFormed : md.WellFormed
  keyPattern : md.keyPattern = start.keyPattern
  owned : ∀ k, start.chunksMap.Covers CachedChunkInfo.maxKey k →
    md.chunksMap.Covers CachedChunkInfo.maxKey k
  shardVersion : start.shardVersion.combined ≤ md.shardVersion.combined
  collVersion : start.collVersion.combined ≤ md.collVersion.combined
  epoch : md.shardVersion.epoch = start.shardVersion.epoch

theorem Successor.refl (wellFormed : md.WellFormed) : Successor md md :=
  ⟨wellFormed, rfl, fun _ covered => covered, UInt64.le_refl _, UInt64.le_refl _, rfl⟩

/-- A clone that changes only the pending chunks undoes nothing. -/
theorem Successor.withPending (successor : Successor start md)
    {pendingMap : OrdMap K (CachedChunkInfo K)}
    (wellFormed : ({ md with pendingMap } : CollectionMetadata K).WellFormed) :
    Successor start { md with pendingMap } :=
  { successor with wellFormed }

/-- The step: every change keeps a successor a successor. -/
theorem Successor.applyChange (successor : Successor start md) {change : Change K}
    (changed : md.applyChange change = some md') : Successor start md' := by
  cases change with
  | plusChunk minKey maxKey chunkVersion =>
      obtain ⟨epoch, newer, -, -, -, same⟩ := clonePlusChunk_inv changed
      obtain ⟨wellFormed, pattern, -, covers⟩ := successor.wellFormed.clonePlusChunk changed
      have shard : md'.shardVersion = chunkVersion := by rw [same]; simp
      have coll : md.collVersion.combined ≤ md'.collVersion.combined := by
        rw [same, fillRanges_collVersion]
        split_ifs with above
        · exact UInt64.le_of_lt above
        · exact UInt64.le_refl _
      refine ⟨wellFormed, pattern.trans successor.keyPattern,
        fun k covered => (covers k).mpr (Or.inl (successor.owned k covered)), ?_,
        UInt64.le_trans successor.collVersion coll, ?_⟩
      · rw [shard]
        exact UInt64.le_trans successor.shardVersion (UInt64.le_of_lt newer)
      · rw [shard, epoch, successor.epoch]
  | plusPending chunk =>
      obtain ⟨wellFormed, same, -⟩ := successor.wellFormed.clonePlusPending changed
      rw [same] at wellFormed ⊢
      exact successor.withPending wellFormed
  | minusPending chunk =>
      obtain ⟨wellFormed, same, -⟩ := successor.wellFormed.cloneMinusPending changed
      rw [same] at wellFormed ⊢
      exact successor.withPending wellFormed

/-- The run: every metadata the clones reach from a well-formed one is its successor. -/
theorem successor_of_reachable (wellFormed : start.WellFormed)
    (reached : StepSystem.Reachable applyChange start md) : Successor start md :=
  reached.invariant (Successor start) (.refl wellFormed)
    fun _ _ _ successor changed => successor.applyChange changed

/-- Along every sequence of clones from a well-formed metadata of a sharded collection,
`keyBelongsToMe` tells exactly the keys of the owned chunks, and `keyIsPending` those of the
pending ones. -/
theorem keyBelongsToMe_reachable (wellFormed : start.WellFormed) (sharded : start.keyPattern ≠ [])
    (reached : StepSystem.Reachable applyChange start md) (key : K) :
    (md.keyBelongsToMe key = true ↔ md.chunksMap.Covers CachedChunkInfo.maxKey key) ∧
      (md.keyIsPending key = true ↔ md.pendingMap.Covers CachedChunkInfo.maxKey key) := by
  have successor := successor_of_reachable wellFormed reached
  have stillSharded : md.keyPattern ≠ [] := successor.keyPattern ▸ sharded
  exact ⟨(keyBelongsToMe_iff md stillSharded successor.wellFormed.ranges key).trans
      (successor.wellFormed.coalesced key),
    keyIsPending_iff md stillSharded successor.wellFormed.pending key⟩

/-- No sequence of clones from a well-formed metadata gives up an owned key, moves the shard or
collection version back, or changes the epoch, and every metadata it reaches is valid. -/
theorem reachable_keeps_owned (wellFormed : start.WellFormed)
    (reached : StepSystem.Reachable applyChange start md) :
    md.isValid = true ∧
      (∀ k, start.chunksMap.Covers CachedChunkInfo.maxKey k →
        md.chunksMap.Covers CachedChunkInfo.maxKey k) ∧
      start.shardVersion.combined ≤ md.shardVersion.combined ∧
      start.collVersion.combined ≤ md.collVersion.combined ∧
      md.shardVersion.epoch = start.shardVersion.epoch := by
  have successor := successor_of_reachable wellFormed reached
  exact ⟨successor.wellFormed.valid, successor.owned, successor.shardVersion,
    successor.collVersion, successor.epoch⟩

end Runs

/-- The version 2|0 of an epoch. -/
def versionTwo : ChunkVersion := ⟨0x200000000, Vector.replicate 12 7⟩

/-- A shard of a collection sharded on `a` that owns `[0, 10)` and `[10, 20)` at version 2|0,
with its ranges filled as the loader fills them. -/
def ownsTwoChunks : CollectionMetadata Nat :=
  fillRanges ⟨versionTwo, versionTwo, [("a", .scalar (.numberInt 1))], .empty,
    ⟨[(0, ⟨10, versionTwo⟩), (10, ⟨20, versionTwo⟩)], by decide⟩, .empty⟩

theorem ownsTwoChunks_wellFormed : ownsTwoChunks.WellFormed where
  chunks := ⟨by decide, by decide⟩
  pending := ⟨by decide, by decide⟩
  ranges := ⟨by decide, by decide⟩
  coalesced := (fillRanges_spec _ ⟨by decide, by decide⟩ rfl).2.2
  valid := by decide

/-- The chunk `[20, 30)` that a migration brings to the shard. -/
def thirdChunk : ChunkType Nat := ⟨20, 30, .IGNORED, "shard0000", by decide⟩

/-- `ownsTwoChunks` once the migration of `thirdChunk` has begun. -/
def receivingThird : CollectionMetadata Nat :=
  (ownsTwoChunks.clonePlusPending thirdChunk).get (by decide)

theorem receivingThird_reachable : StepSystem.Reachable applyChange ownsTwoChunks receivingThird :=
  .tail (.plusPending thirdChunk) .refl (Option.some_get _).symm

theorem keyBelongsToMe_receivingThird :
    (receivingThird.keyBelongsToMe 25 = true ↔
        receivingThird.chunksMap.Covers CachedChunkInfo.maxKey 25) ∧
      (receivingThird.keyIsPending 25 = true ↔
        receivingThird.pendingMap.Covers CachedChunkInfo.maxKey 25) :=
  keyBelongsToMe_reachable ownsTwoChunks_wellFormed (by decide) receivingThird_reachable 25

theorem receivingThird_keeps_owned :
    receivingThird.isValid = true ∧
      (∀ k, ownsTwoChunks.chunksMap.Covers CachedChunkInfo.maxKey k →
        receivingThird.chunksMap.Covers CachedChunkInfo.maxKey k) ∧
      ownsTwoChunks.shardVersion.combined ≤ receivingThird.shardVersion.combined ∧
      ownsTwoChunks.collVersion.combined ≤ receivingThird.collVersion.combined ∧
      receivingThird.shardVersion.epoch = ownsTwoChunks.shardVersion.epoch :=
  reachable_keeps_owned ownsTwoChunks_wellFormed receivingThird_reachable

/-- The received chunk is pending and not owned. -/
example : receivingThird.keyIsPending 25 = true ∧ receivingThird.keyBelongsToMe 25 = false := by
  decide

theorem applyChange_isSome_ownsTwoChunks :
    (ownsTwoChunks.applyChange (.plusChunk 20 30 ⟨0x200000001, Vector.replicate 12 7⟩)).isSome =
      ownsTwoChunks.enabled (.plusChunk 20 30 ⟨0x200000001, Vector.replicate 12 7⟩) :=
  applyChange_isSome ownsTwoChunks_wellFormed _

/-- A chunk version with its top bit set has a negative major version: all preconditions hold,
and the final `isValid` fails. -/
example : ownsTwoChunks.clonePlusChunk 20 30 ⟨0x8000000000000000, Vector.replicate 12 7⟩ = none := by
  decide

end CollectionMetadata

end FastMongo.Sharding

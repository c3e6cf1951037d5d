import FastMongo.Base.Status
import FastMongo.Sharding.MetadataState

/-!
`MetadataLoader` of `db/s/metadata_loader.cpp`, which builds a shard's `CollectionMetadata`
from the config server: `_initCollection` reads the collection's entry, `_initChunks` its chunks
through the `SCMConfigDiffTracker`, and `makeCollectionMetadata` runs the two. When the shard
already has metadata of the same epoch, only the chunks at or above its collection version are
read and applied to a copy of its chunk map (an incremental reload); otherwise every chunk is
read (a full reload).

The config server is an oracle here: `getCollection` and `getChunks` answer with a status or the
entries. Its chunks tile the collection's shard key range, and a chunk that a split, merge or
migration creates carries a version above every version before it. A reload then always
succeeds and loads exactly the shard's chunks of the current tiling with the greatest chunk
version as the collection version; an incremental reload from metadata loaded before differs
from a full one in the shard version alone. Whatever the config server answers, as long as its
chunk versions have a positive major part, neither `invariant` of `_initChunks` fails.
-/

namespace FastMongo.Sharding

open RangeMap FastMongo.Bson

variable {K : Type} [LinearOrder K]

/-- `ErrorCodes::NamespaceNotFound`, by its number in `error_codes.err`. -/
def namespaceNotFound : ErrorCode := .location 26

/-- `ErrorCodes::RemoteChangeDetected`, by its number in `error_codes.err`. -/
def remoteChangeDetected : ErrorCode := .location 36

/-- `toHexLower`: two lowercase hex digits for each byte, the high nibble first. -/
def toHexLower (bytes : List UInt8) : String :=
  let hexchars := "0123456789abcdef".toList
  String.join (bytes.map fun (c : UInt8) =>
    String.ofList [hexchars.getD ((c &&& 0xF0) >>> 4).toNat '0', hexchars.getD (c &&& 0x0F).toNat '0'])

/-- `ChunkVersion::toString`: `major|minor||epoch`, the epoch as `OID::toString` writes it. -/
def ChunkVersion.toString (v : ChunkVersion) : String :=
  ToString.toString v.majorVersion ++ "|" ++ ToString.toString v.minorVersion ++ "||" ++
    toHexLower v.epoch.toList

/-- What the loader reads of a `CollectionType`: whether the collection is dropped, its shard key
pattern and its epoch. -/
structure CollectionType where
  dropped : Bool
  keyPattern : BSONObj
  epoch : Vector UInt8 12

/-- The two reads the loader makes of `ShardingCatalogClient`: `getCollection` of a namespace, and
`getChunks` for the query `configDiffQuery` builds, the chunks of a namespace whose `lastmod` is
at or above a combined version. -/
structure CatalogClient (K : Type) [LinearOrder K] where
  getCollection : String → StatusWith CollectionType
  getChunks : String → UInt64 → StatusWith (List (ChunkType K))

namespace MetadataLoader

/-- `_initCollection`: the collection's key pattern, and its epoch at version `0|0` for both the
shard and the collection version. `fillKeyPatternFields` fills `_keyFields`, which is left
out. -/
def initCollection (catalog : CatalogClient K) (ns : String) (metadata : CollectionMetadata K) :
    StatusWith (CollectionMetadata K) :=
  match catalog.getCollection ns with
  | .error status => .error status
  | .ok collInfo =>
      if collInfo.dropped then
        .error ⟨namespaceNotFound,
          "Could not load metadata because collection " ++ ns ++ " was dropped"⟩
      else
        .ok { metadata with
          keyPattern := collInfo.keyPattern
          shardVersion := ⟨0, collInfo.epoch⟩
          collVersion := ⟨0, collInfo.epoch⟩ }

/-- The start of `_initChunks`: the metadata the differ fills, the shard's entry of `versionMap`,
and `fullReload`. Old metadata of the same epoch lends its chunks and both its versions; `none`
is its `invariant(oldMetadata->isValid())` failing. -/
def reloadBase (oldMetadata : Option (CollectionMetadata K)) (metadata : CollectionMetadata K) :
    Option (CollectionMetadata K × ChunkVersion × Bool) :=
  match oldMetadata with
  | some old =>
      if old.collVersion.hasEqualEpoch metadata.collVersion.epoch then
        if old.isValid then
          some ({ metadata with collVersion := old.collVersion, chunksMap := old.chunksMap },
            old.shardVersion, false)
        else none
      else some (metadata, metadata.shardVersion, true)
  | none => some (metadata, metadata.shardVersion, true)

/-- The differ `_initChunks` builds: over the metadata's chunk map and collection version, with a
`versionMap` that holds the shard alone. -/
def differ (metadata : CollectionMetadata K) (shard : ShardId) (shardVersion : ChunkVersion) :
    DiffTracker K (CachedChunkInfo K) :=
  ⟨metadata.chunksMap, metadata.collVersion,
    Function.update (fun _ => none) shard (some shardVersion), 0⟩

/-- The metadata `_initChunks` checks once the differ applied chunks: the differ's map and
collection version, the shard's version from `versionMap` (`ChunkVersion()` where it has no
entry), and the ranges filled. -/
def appliedMetadata (shard : ShardId) (epoch : Vector UInt8 12) (fullReload : Bool)
    (metadata : CollectionMetadata K) (differ : DiffTracker K (CachedChunkInfo K)) :
    CollectionMetadata K :=
  let metadata := { metadata with chunksMap := differ.currMap, collVersion := differ.maxVersion }
  -- the last chunk moved off this shard: the version kept from the old metadata goes back to 0
  let versionMap :=
    if !fullReload && metadata.chunksMap.entries.isEmpty then
      Function.update differ.maxShardVersions shard (some ⟨0, epoch⟩)
    else differ.maxShardVersions
  { metadata with shardVersion := (versionMap shard).getD .zero }.fillRanges

/-- The end of `_initChunks`, by the `diffsApplied` of the differ: the metadata applied, once
`invariant(metadata->isValid())` holds (`none` where it fails), or the error for no chunks or for
chunks of another epoch. -/
def finishChunks (ns : String) (shard : ShardId) (epoch : Vector UInt8 12) (fullReload : Bool)
    (metadata : CollectionMetadata K) (differ : DiffTracker K (CachedChunkInfo K))
    (diffsApplied : Int) : Option (StatusWith (CollectionMetadata K)) :=
  if diffsApplied > 0 then
    let metadata := appliedMetadata shard epoch fullReload metadata differ
    if metadata.isValid then some (.ok metadata) else none
  else if diffsApplied = 0 then
    some (.error ⟨if fullReload then namespaceNotFound else remoteChangeDetected,
      "No chunks found when reloading " ++ ns ++ ", previous version was " ++
        differ.maxVersion.toString ++ if fullReload then ", this is a drop" else ""⟩)
  else
    some (.error ⟨remoteChangeDetected,
      "Invalid chunks found when reloading " ++ ns ++ ", previous version was " ++
        differ.maxVersion.toString ++ ", this should be rare"⟩)

/-- `_initChunks`: the differ, over the map and versions `reloadBase` starts from, applies the
chunks `configDiffQuery` selects, those at or above the collection version. -/
def initChunks (catalog : CatalogClient K) (ns : String) (shard : ShardId)
    (oldMetadata : Option (CollectionMetadata K)) (metadata : CollectionMetadata K) :
    Option (StatusWith (CollectionMetadata K)) :=
  let epoch := metadata.collVersion.epoch
  match reloadBase oldMetadata metadata with
  | none => none
  | some (metadata, shardVersion, fullReload) =>
      match catalog.getChunks ns metadata.collVersion.combined with
      | .error status => some (.error status)
      | .ok chunks =>
          let diff := calculateConfigDiff (scmConfigDiffTracker shard)
            (differ metadata shard shardVersion) chunks
          finishChunks ns shard epoch fullReload metadata diff.1 diff.2

/-- `makeCollectionMetadata`: `_initCollection`, then `_initChunks`. -/
def makeCollectionMetadata (catalog : CatalogClient K) (ns : String) (shard : ShardId)
    (oldMetadata : Option (CollectionMetadata K)) (metadata : CollectionMetadata K) :
    Option (StatusWith (CollectionMetadata K)) :=
  match initCollection catalog ns metadata with
  | .error status => some (.error status)
  | .ok metadata => initChunks catalog ns shard oldMetadata metadata

section Fields

variable {shard : ShardId} {epoch : Vector UInt8 12} {fullReload : Bool}
  {metadata : CollectionMetadata K} {shardVersion : ChunkVersion}
  {differ' : DiffTracker K (CachedChunkInfo K)}

@[simp] theorem differ_currMap : (differ metadata shard shardVersion).currMap = metadata.chunksMap :=
  rfl

@[simp] theorem differ_maxVersion :
    (differ metadata shard shardVersion).maxVersion = metadata.collVersion := rfl

@[simp] theorem differ_maxShardVersions_self :
    (differ metadata shard shardVersion).maxShardVersions shard = some shardVersion := by
  simp [differ]

/-- The differ starts with no diffs counted, as `calculateConfigDiff` resets them. -/
@[simp] theorem differ_validDiffs :
    ({ differ metadata shard shardVersion with validDiffs := 0 } : DiffTracker K _) =
      differ metadata shard shardVersion := rfl

@[simp] theorem appliedMetadata_chunksMap :
    (appliedMetadata shard epoch fullReload metadata differ').chunksMap = differ'.currMap := by
  simp [appliedMetadata]

@[simp] theorem appliedMetadata_collVersion :
    (appliedMetadata shard epoch fullReload metadata differ').collVersion = differ'.maxVersion := by
  simp [appliedMetadata]

@[simp] theorem appliedMetadata_keyPattern :
    (appliedMetadata shard epoch fullReload metadata differ').keyPattern = metadata.keyPattern := by
  simp [appliedMetadata]

@[simp] theorem appliedMetadata_pendingMap :
    (appliedMetadata shard epoch fullReload metadata differ').pendingMap = metadata.pendingMap := by
  simp [appliedMetadata]

theorem appliedMetadata_shardVersion :
    (appliedMetadata shard epoch fullReload metadata differ').shardVersion =
      if !fullReload && differ'.currMap.entries.isEmpty then ⟨0, epoch⟩
      else (differ'.maxShardVersions shard).getD .zero := by
  simp only [appliedMetadata, CollectionMetadata.fillRanges_shardVersion]
  split_ifs <;> simp

/-- The applied metadata is the differ's, with its ranges filled from its chunks alone. -/
theorem appliedMetadata_eq :
    appliedMetadata shard epoch fullReload metadata differ' =
      { metadata with
        chunksMap := differ'.currMap
        collVersion := differ'.maxVersion
        shardVersion := (appliedMetadata shard epoch fullReload metadata differ').shardVersion
      }.fillRanges := by
  simp only [appliedMetadata, CollectionMetadata.fillRanges_shardVersion]

end Fields

/-- `_initCollection` succeeds on a collection entry that is not dropped, and sets the key
pattern and the versions `0|0` of its epoch. -/
theorem initCollection_eq_ok {catalog : CatalogClient K} {ns : String}
    {metadata md : CollectionMetadata K} :
    initCollection catalog ns metadata = .ok md ↔ ∃ collInfo,
      catalog.getCollection ns = .ok collInfo ∧ collInfo.dropped = false ∧
        md = { metadata with
          keyPattern := collInfo.keyPattern
          shardVersion := ⟨0, collInfo.epoch⟩
          collVersion := ⟨0, collInfo.epoch⟩ } := by
  unfold initCollection
  cases catalog.getCollection ns with
  | error status => simp
  | ok collInfo =>
      cases dropped : collInfo.dropped <;> simp [dropped, eq_comm (a := md)]

/-- What the differ of `_initChunks` starts from, in the epoch read first: a metadata without
ranges, versions of that epoch and in order, a shard version whose major part is not negative and
is positive over chunks, and, for a full reload, no chunks and a zero shard version. -/
structure ReloadStart (epoch : Vector UInt8 12) (metadata : CollectionMetadata K)
    (shardVersion : ChunkVersion) (fullReload : Bool) : Prop where
  fresh : metadata.rangesMap.entries = []
  collEpoch : metadata.collVersion.epoch = epoch
  shardEpoch : shardVersion.epoch = epoch
  le : shardVersion.combined ≤ metadata.collVersion.combined
  nonneg : 0 ≤ shardVersion.majorVersion
  owned : metadata.chunksMap.entries ≠ [] → 0 < shardVersion.majorVersion
  full : fullReload = true → metadata.chunksMap.entries = [] ∧ shardVersion.combined = 0

/-- What `_initCollection` leaves in a new `CollectionMetadata` of a collection of epoch `epoch`:
both versions `0|0` of the epoch, and no chunks, ranges or pending chunks. -/
structure Initialized (epoch : Vector UInt8 12) (metadata : CollectionMetadata K) : Prop where
  collVersion : metadata.collVersion = ⟨0, epoch⟩
  shardVersion : metadata.shardVersion = ⟨0, epoch⟩
  chunks : metadata.chunksMap.entries = []
  ranges : metadata.rangesMap.entries = []
  pending : metadata.pendingMap.entries = []

theorem initialized_of_initCollection {catalog : CatalogClient K} {ns : String}
    {metadata : CollectionMetadata K} (collection : initCollection catalog ns .init = .ok metadata) :
    ∃ collInfo, catalog.getCollection ns = .ok collInfo ∧ collInfo.dropped = false ∧
      Initialized collInfo.epoch metadata ∧ metadata.keyPattern = collInfo.keyPattern := by
  obtain ⟨collInfo, found, kept, rfl⟩ := initCollection_eq_ok.mp collection
  exact ⟨collInfo, found, kept, ⟨rfl, rfl, rfl, rfl, rfl⟩, rfl⟩

/-- A new metadata as `_initCollection` leaves it starts a full reload. -/
theorem Initialized.reloadStart {epoch : Vector UInt8 12} {metadata : CollectionMetadata K}
    (initialized : Initialized epoch metadata) :
    ReloadStart epoch metadata metadata.shardVersion true where
  fresh := initialized.ranges
  collEpoch := by rw [initialized.collVersion]
  shardEpoch := by rw [initialized.shardVersion]
  le := by rw [initialized.shardVersion]; exact UInt64.zero_le
  nonneg := (ChunkVersion.majorVersion_nonneg_iff _).mpr (by simp [initialized.shardVersion])
  owned := fun nonempty => absurd initialized.chunks nonempty
  full := fun _ => ⟨initialized.chunks, by rw [initialized.shardVersion]⟩

theorem Initialized.pending_apart {epoch : Vector UInt8 12} {metadata : CollectionMetadata K}
    (initialized : Initialized epoch metadata) :
    metadata.pendingMap.Apart CachedChunkInfo.maxKey :=
  ⟨fun e member => by simp [initialized.pending] at member,
    fun e member => by simp [initialized.pending] at member⟩

/-- From metadata as `_initCollection` leaves a new one, and old metadata that, in the same epoch,
is valid with a shard version whose major part is not negative, `reloadBase` starts a reload. -/
theorem reloadBase_start {epoch : Vector UInt8 12} (oldMetadata : Option (CollectionMetadata K))
    (metadata : CollectionMetadata K) (initialized : Initialized epoch metadata)
    (valid : ∀ old ∈ oldMetadata, old.collVersion.epoch = epoch →
      old.isValid = true ∧ 0 ≤ old.shardVersion.majorVersion) :
    ∃ base shardVersion fullReload,
      reloadBase oldMetadata metadata = some (base, shardVersion, fullReload) ∧
        ReloadStart epoch base shardVersion fullReload ∧
        base.keyPattern = metadata.keyPattern ∧ base.pendingMap = metadata.pendingMap := by
  cases oldMetadata with
  | none => exact ⟨_, _, _, rfl, initialized.reloadStart, rfl, rfl⟩
  | some old =>
      by_cases sameEpoch : old.collVersion.hasEqualEpoch metadata.collVersion.epoch
      · -- an incremental reload: the old metadata's versions are in order and of its epoch
        have collEpoch : old.collVersion.epoch = epoch := by
          simpa [ChunkVersion.hasEqualEpoch, initialized.collVersion] using sameEpoch
        obtain ⟨oldValid, oldNonneg⟩ := valid old rfl collEpoch
        obtain ⟨shardLe, -, epochs⟩ := CollectionMetadata.versions_of_isValid oldValid
        refine ⟨{ metadata with collVersion := old.collVersion, chunksMap := old.chunksMap },
          old.shardVersion, false, by simp [reloadBase, sameEpoch, oldValid], ?_, rfl, rfl⟩
        exact
          { fresh := initialized.ranges
            collEpoch
            shardEpoch := epochs.symm.trans collEpoch
            le := shardLe
            nonneg := oldNonneg
            owned := CollectionMetadata.majorVersion_pos_of_isValid oldValid
            full := fun isFull => absurd isFull Bool.false_ne_true }
      · exact ⟨_, _, _, by simp [reloadBase, sameEpoch], initialized.reloadStart, rfl, rfl⟩

theorem appliedMetadata_rangesMap_eq_nil {shard : ShardId} {epoch : Vector UInt8 12}
    {fullReload : Bool} {metadata : CollectionMetadata K} (differ' : DiffTracker K (CachedChunkInfo K))
    (fresh : metadata.rangesMap.entries = []) :
    (appliedMetadata shard epoch fullReload metadata differ').rangesMap.entries = [] ↔
      differ'.currMap.entries = [] := by
  rw [appliedMetadata_eq]
  exact CollectionMetadata.fillRanges_rangesMap_eq_nil _ fresh

section Applied

variable {shard : ShardId} {epoch : Vector UInt8 12} {fullReload : Bool}
  {metadata : CollectionMetadata K} {shardVersion : ChunkVersion} {chunks : List (ChunkType K)}

/-- The shard's entry of `versionMap` after the first loop: the version it started from or that of
a chunk on the shard, at or above both. -/
theorem shardEntry_foldl (metadata : CollectionMetadata K) (shard : ShardId)
    (shardVersion : ChunkVersion) (chunks : List (ChunkType K)) :
    ∃ w, (chunks.foldl (·.applyChunk (scmConfigDiffTracker shard) ·)
        (differ metadata shard shardVersion)).maxShardVersions shard = some w ∧
      shardVersion.combined ≤ w.combined ∧
      (∀ c ∈ chunks, c.shard = shard → c.version.combined ≤ w.combined) ∧
      (w = shardVersion ∨ ∃ c ∈ chunks, c.shard = shard ∧ w = c.version) := by
  obtain ⟨raised, covers, which⟩ := shardVersion_foldl_applyChunk (scmConfigDiffTracker shard)
    shard chunks (differ metadata shard shardVersion)
  obtain ⟨w, entry, above⟩ := raised shardVersion differ_maxShardVersions_self
  refine ⟨w, entry, above, fun c mc onShard => ?_, ?_⟩
  · obtain ⟨w', entry', below⟩ := covers c mc onShard
    rw [entry, Option.some.injEq] at entry'
    exact entry' ▸ below
  · rcases which with kept | ⟨c, mc, onShard, taken⟩
    · rw [entry, differ_maxShardVersions_self, Option.some.injEq] at kept
      exact .inl kept
    · rw [entry, Option.some.injEq] at taken
      exact .inr ⟨c, mc, onShard, taken⟩

section Positive

variable (start : ReloadStart epoch metadata shardVersion fullReload)
  (epochs : ∀ c ∈ chunks, c.version.epoch = metadata.collVersion.epoch)
  (positive : ∀ c ∈ chunks, 0 < c.version.majorVersion)
include start epochs positive

/-- After the differ applied chunks of the epoch whose versions have a positive major part, one
at least, the collection version has a major version and is of the epoch. -/
theorem maxVersion_foldl_of_positive (nonempty : chunks ≠ []) :
    (chunks.foldl (·.applyChunk (scmConfigDiffTracker shard) ·)
        (differ metadata shard shardVersion)).maxVersion.majorVersion ≠ 0 ∧
      (chunks.foldl (·.applyChunk (scmConfigDiffTracker shard) ·)
        (differ metadata shard shardVersion)).maxVersion.epoch = epoch := by
  obtain ⟨-, collCovers, collWhich⟩ := maxVersion_foldl_applyChunk (scmConfigDiffTracker shard)
    chunks (differ metadata shard shardVersion)
  obtain ⟨first, mFirst⟩ := List.exists_mem_of_ne_nil chunks nonempty
  refine ⟨?_, ?_⟩
  · -- a version with a positive major part is at or above `2^32`
    rw [Ne, ChunkVersion.majorVersion_eq_zero_iff, not_lt]
    exact ((ChunkVersion.majorVersion_pos_iff _).mp (positive first mFirst)).1.trans
      (UInt64.le_iff_toNat_le.mp (collCovers first mFirst))
  · rcases collWhich with same | ⟨c, mc, same⟩
    · rw [same, differ_maxVersion, start.collEpoch]
    · rw [same, epochs c mc, start.collEpoch]

/-- The shard's entry of `versionMap` after the differ applied chunks of the epoch whose versions
have a positive major part: of the epoch and at most the collection version, with a positive
major part once the map started with chunks or a chunk of the shard was applied, and zero in a
full reload that applied none. -/
theorem shardEntry_of_positive :
    ∃ w, (chunks.foldl (·.applyChunk (scmConfigDiffTracker shard) ·)
        (differ metadata shard shardVersion)).maxShardVersions shard = some w ∧
      w.combined ≤ (chunks.foldl (·.applyChunk (scmConfigDiffTracker shard) ·)
        (differ metadata shard shardVersion)).maxVersion.combined ∧
      w.epoch = epoch ∧
      (metadata.chunksMap.entries ≠ [] ∨ (∃ c ∈ chunks, c.shard = shard) → 0 < w.majorVersion) ∧
      (fullReload = true → (∀ c ∈ chunks, c.shard ≠ shard) → w.combined = 0) := by
  obtain ⟨collAbove, collCovers, -⟩ := maxVersion_foldl_applyChunk (scmConfigDiffTracker shard)
    chunks (differ metadata shard shardVersion)
  obtain ⟨w, entry, -, shardCovers, shardWhich⟩ := shardEntry_foldl metadata shard shardVersion chunks
  -- the entry is the start's version, or that of a chunk on the shard
  refine ⟨w, entry, ?_, ?_, fun owned => ?_, fun full none => ?_⟩
  · rcases shardWhich with same | ⟨c, mc, -, same⟩
    · rw [same]
      exact UInt64.le_trans start.le collAbove
    · rw [same]
      exact collCovers c mc
  · rcases shardWhich with same | ⟨c, mc, -, same⟩
    · rw [same, start.shardEpoch]
    · rw [same, epochs c mc, start.collEpoch]
  · rcases shardWhich with same | ⟨c, mc, -, same⟩
    · subst same
      rcases owned with cached | ⟨c, mc, onShard⟩
      · exact start.owned cached
      · -- a chunk of the shard raised the entry to its version, at or above `2^32`
        have raised := UInt64.le_iff_toNat_le.mp (shardCovers c mc onShard)
        have big := ((ChunkVersion.majorVersion_pos_iff _).mp (positive c mc)).1
        have below := (ChunkVersion.majorVersion_nonneg_iff _).mp start.nonneg
        exact (ChunkVersion.majorVersion_pos_iff _).mpr ⟨big.trans raised, below⟩
    · exact same ▸ positive c mc
  · rcases shardWhich with same | ⟨c, mc, onShard, -⟩
    · exact same ▸ (start.full full).2
    · exact absurd onShard (none c mc)

end Positive

/-- After the differ applied chunks whose versions have a positive major part, from a start
`reloadBase` gives, the metadata `_initChunks` checks is valid: its last `invariant` holds. -/
theorem isValid_appliedMetadata (start : ReloadStart epoch metadata shardVersion fullReload)
    (positive : ∀ c ∈ chunks, 0 < c.version.majorVersion)
    (applied : 0 < (calculateConfigDiff (scmConfigDiffTracker shard)
      (differ metadata shard shardVersion) chunks).2) :
    (appliedMetadata shard epoch fullReload metadata (calculateConfigDiff (scmConfigDiffTracker shard)
      (differ metadata shard shardVersion) chunks).1).isValid = true := by
  obtain ⟨epochs, currMap, result, members⟩ := calculateConfigDiff_of_pos _ chunks applied
  simp only [differ_validDiffs] at result
  rw [result] at applied ⊢
  obtain ⟨collMajor, collEpoch⟩ :=
    maxVersion_foldl_of_positive start epochs positive (by rintro rfl; simp at applied)
  obtain ⟨w, entry, entryLe, entryEpoch, entryOwned, entryUnowned⟩ :=
    shardEntry_of_positive start epochs positive
  set reached := chunks.foldl (·.applyChunk (scmConfigDiffTracker shard) ·)
    (differ metadata shard shardVersion)
  -- the map holds the cached entries left and the chunks of the shard
  have holds : currMap.entries ≠ [] →
      metadata.chunksMap.entries ≠ [] ∨ ∃ c ∈ chunks, c.shard = shard := by
    intro nonempty
    obtain ⟨e, member⟩ := List.exists_mem_of_ne_nil _ nonempty
    rcases (members e).mp member with ⟨cached, -⟩ | ⟨c, mc, -⟩
    · exact .inl (List.ne_nil_of_mem cached)
    · exact .inr ⟨c, List.mem_of_mem_filter mc,
        by simpa [scmConfigDiffTracker] using (List.mem_filter.mp mc).2⟩
  have inserted : ∀ c ∈ chunks, c.shard = shard → currMap.entries ≠ [] := fun c mc onShard =>
    List.ne_nil_of_mem ((members _).mpr
      (.inr ⟨c, List.mem_filter.mpr ⟨mc, by simp [scmConfigDiffTracker, onShard]⟩, rfl⟩))
  have shardIs : (appliedMetadata shard epoch fullReload metadata { reached with currMap }).shardVersion =
      if fullReload = false ∧ currMap.entries = [] then ⟨0, epoch⟩ else w := by
    rw [appliedMetadata_shardVersion]
    simp [entry]
  apply CollectionMetadata.isValid_of_versions
  · rw [shardIs, appliedMetadata_collVersion]
    split_ifs
    · exact UInt64.zero_le
    · exact entryLe
  · rw [appliedMetadata_collVersion]
    exact collMajor
  · rw [shardIs, appliedMetadata_collVersion]
    split_ifs
    · exact collEpoch
    · exact collEpoch.trans entryEpoch.symm
  · rw [appliedMetadata_chunksMap]
    exact appliedMetadata_rangesMap_eq_nil _ start.fresh
  · rw [shardIs, appliedMetadata_chunksMap]
    intro nonempty
    rw [if_neg fun reset => nonempty reset.2]
    exact entryOwned (holds nonempty)
  · rw [shardIs, appliedMetadata_chunksMap]
    intro empty
    cases fullReload
    · rw [if_pos ⟨rfl, empty⟩]
    · simpa using entryUnowned rfl fun c mc onShard => inserted c mc onShard empty

end Applied

/-- `_initChunks` once `reloadBase` started and the config server answered the query. -/
theorem initChunks_eq {catalog : CatalogClient K} {ns : String} {shard : ShardId}
    {oldMetadata : Option (CollectionMetadata K)} {metadata base : CollectionMetadata K}
    {shardVersion : ChunkVersion} {fullReload : Bool} {chunks : List (ChunkType K)}
    (started : reloadBase oldMetadata metadata = some (base, shardVersion, fullReload))
    (answer : catalog.getChunks ns base.collVersion.combined = .ok chunks) :
    initChunks catalog ns shard oldMetadata metadata =
      finishChunks ns shard metadata.collVersion.epoch fullReload base
        (calculateConfigDiff (scmConfigDiffTracker shard) (differ base shard shardVersion) chunks).1
        (calculateConfigDiff (scmConfigDiffTracker shard) (differ base shard shardVersion) chunks).2 := by
  simp only [initChunks, started, answer]

theorem finishChunks_of_pos {ns : String} {shard : ShardId} {epoch : Vector UInt8 12}
    {fullReload : Bool} {metadata : CollectionMetadata K} {differ' : DiffTracker K (CachedChunkInfo K)}
    {diffsApplied : Int} (applied : 0 < diffsApplied) :
    finishChunks ns shard epoch fullReload metadata differ' diffsApplied =
      if (appliedMetadata shard epoch fullReload metadata differ').isValid then
        some (.ok (appliedMetadata shard epoch fullReload metadata differ'))
      else none := by
  simp only [finishChunks, gt_iff_lt, if_pos applied]

/-- Where the differ applied nothing, `_initChunks` reports an error and checks nothing. -/
theorem finishChunks_isSome_of_nonpos {ns : String} {shard : ShardId} {epoch : Vector UInt8 12}
    {fullReload : Bool} {metadata : CollectionMetadata K} {differ' : DiffTracker K (CachedChunkInfo K)}
    {diffsApplied : Int} (none : ¬0 < diffsApplied) :
    (finishChunks ns shard epoch fullReload metadata differ' diffsApplied).isSome = true := by
  simp only [finishChunks, gt_iff_lt, if_neg none]
  split_ifs <;> rfl

section Loading

variable {shard : ShardId} {epoch : Vector UInt8 12} {Q : List (ChunkType K)} {lo hi : K}

theorem chunkVersion_eq {v w : ChunkVersion} (combined : v.combined = w.combined)
    (epochs : v.epoch = w.epoch) : v = w := by
  cases v
  cases w
  simp_all

/-- The entries a shard keeps of the chunks of a tiling are apart. -/
theorem apart_of_perm_trackedEntries {m : OrdMap K (CachedChunkInfo K)}
    (tiles : Tiles ChunkType.min ChunkType.max Q lo hi)
    (perm : m.entries.Perm ((scmConfigDiffTracker shard).trackedEntries Q)) :
    m.Apart CachedChunkInfo.maxKey := by
  have members : ∀ e ∈ m.entries, ∃ c ∈ Q, (c.min, ⟨c.max, c.version⟩) = e := fun e member => by
    obtain ⟨c, mc, same⟩ := List.mem_map.mp (perm.mem_iff.mp member)
    exact ⟨c, (List.mem_filter.mp mc).1, same⟩
  refine ⟨fun e member => ?_, fun e member e' member' before => ?_⟩
  · obtain ⟨c, -, rfl⟩ := members e member
    exact c.min_lt_max
  · obtain ⟨c, mc, rfl⟩ := members e member
    obtain ⟨d, md, rfl⟩ := members e' member'
    -- `c` starts before `d`: were it to reach past `d`'s start, the two would be one piece
    by_contra reaches
    have same := tiles.eq_of_overlap mc md (before.trans d.min_lt_max) (not_le.mp reaches)
    subst same
    exact lt_irrefl _ before

/-- What a shard's metadata holds once it loaded the chunks `Q` of its collection: it is well
formed, its map holds exactly the shard's chunks of `Q`, its collection version is the greatest
version of `Q` and has a positive major part, and its shard version is at or above the versions
of the shard's chunks. -/
structure Loaded (shard : ShardId) (Q : List (ChunkType K)) (md : CollectionMetadata K) :
    Prop where
  wellFormed : md.WellFormed
  chunks : md.chunksMap.entries.Perm ((scmConfigDiffTracker shard).trackedEntries Q)
  collVersion_mem : ∃ c ∈ Q, md.collVersion = c.version
  collVersion_ge : ∀ c ∈ Q, c.version.combined ≤ md.collVersion.combined
  collVersion_pos : 0 < md.collVersion.majorVersion
  shardVersion_ge : ∀ c ∈ Q, c.shard = shard → c.version.combined ≤ md.shardVersion.combined

section Loaded

variable {md md' : CollectionMetadata K}

/-- The shard version of loaded metadata is at most its collection version, so below the sign
bit. -/
theorem Loaded.shardVersion_nonneg (loaded : Loaded shard Q md) :
    0 ≤ md.shardVersion.majorVersion := by
  have le := UInt64.le_iff_toNat_le.mp
    (CollectionMetadata.versions_of_isValid loaded.wellFormed.valid).1
  have below := ((ChunkVersion.majorVersion_pos_iff _).mp loaded.collVersion_pos).2
  exact (ChunkVersion.majorVersion_nonneg_iff _).mpr (lt_of_le_of_lt le below)

/-- In loaded metadata of a sharded collection, `keyBelongsToMe` tells exactly the keys of the
shard's chunks. -/
theorem Loaded.keyBelongsToMe_iff (loaded : Loaded shard Q md) (sharded : md.keyPattern ≠ [])
    (key : K) :
    md.keyBelongsToMe key = true ↔ ∃ c ∈ Q, c.shard = shard ∧ c.min ≤ key ∧ key < c.max := by
  rw [CollectionMetadata.keyBelongsToMe_iff md sharded loaded.wellFormed.ranges,
    loaded.wellFormed.coalesced, OrdMap.Covers]
  simp only [loaded.chunks.mem_iff, DiffTrackerOps.trackedEntries, List.mem_map, List.mem_filter]
  constructor
  · rintro ⟨_, ⟨c, ⟨mc, tracked⟩, rfl⟩, starts, ends⟩
    exact ⟨c, mc, by simpa [scmConfigDiffTracker] using tracked, starts, ends⟩
  · rintro ⟨c, mc, onShard, starts, ends⟩
    exact ⟨_, ⟨c, ⟨mc, by simp [scmConfigDiffTracker, onShard]⟩, rfl⟩, starts, ends⟩

/-- Two loads of the same chunks hold the same chunk map. -/
theorem Loaded.chunksMap_eq (loaded : Loaded shard Q md) (loaded' : Loaded shard Q md') :
    md.chunksMap = md'.chunksMap :=
  OrdMap.eq_of_perm (loaded.chunks.trans loaded'.chunks.symm)

/-- Two loads of the same chunks, all of one epoch, hold the same collection version. -/
theorem Loaded.collVersion_eq (loaded : Loaded shard Q md) (loaded' : Loaded shard Q md')
    (epochs : ∀ c ∈ Q, c.version.epoch = epoch) : md.collVersion = md'.collVersion := by
  obtain ⟨c, mc, same⟩ := loaded.collVersion_mem
  obtain ⟨c', mc', same'⟩ := loaded'.collVersion_mem
  -- each is at or above the other
  have below := loaded.collVersion_ge c' mc'
  have above := loaded'.collVersion_ge c mc
  rw [← same'] at below
  rw [← same] at above
  refine chunkVersion_eq (UInt64.le_antisymm above below) ?_
  rw [same, same', epochs c mc, epochs c' mc']

end Loaded

/-- The config server holds the collection `ns`, not dropped, with its key pattern and epoch, and
its chunks `Q`: they tile `[lo, hi)`, in the epoch, with versions of a positive major part.
`getChunks` answers the chunks at or above the version asked, in any order. -/
structure Serves (catalog : CatalogClient K) (ns : String) (keyPattern : BSONObj)
    (epoch : Vector UInt8 12) (Q : List (ChunkType K)) (lo hi : K) : Prop where
  collection : catalog.getCollection ns = .ok ⟨false, keyPattern, epoch⟩
  tiles : Tiles ChunkType.min ChunkType.max Q lo hi
  ordered : lo < hi
  epochs : ∀ c ∈ Q, c.version.epoch = epoch
  positive : ∀ c ∈ Q, 0 < c.version.majorVersion
  answers : ∀ floor, ∃ chunks, catalog.getChunks ns floor = .ok chunks ∧
    chunks.Perm (Q.filter fun c => floor ≤ c.version.combined)

/-- The applied metadata is well formed once valid, over chunks that are apart and a pending
map that is. -/
theorem wellFormed_appliedMetadata {fullReload : Bool} {base : CollectionMetadata K}
    {differ' : DiffTracker K (CachedChunkInfo K)} (fresh : base.rangesMap.entries = [])
    (pending : base.pendingMap.Apart CachedChunkInfo.maxKey)
    (chunks : differ'.currMap.Apart CachedChunkInfo.maxKey)
    (valid : (appliedMetadata shard epoch fullReload base differ').isValid = true) :
    (appliedMetadata shard epoch fullReload base differ').WellFormed := by
  -- the ranges are filled from the chunks alone
  let unfilled : CollectionMetadata K := { base with
    chunksMap := differ'.currMap
    collVersion := differ'.maxVersion
    shardVersion := (appliedMetadata shard epoch fullReload base differ').shardVersion }
  have filled : appliedMetadata shard epoch fullReload base differ' = unfilled.fillRanges :=
    appliedMetadata_eq
  obtain ⟨rangesApart, -, coalesced⟩ := CollectionMetadata.fillRanges_spec unfilled chunks fresh
  rw [← filled] at rangesApart coalesced
  exact ⟨by simpa using chunks, by simpa using pending, rangesApart, by simpa using coalesced, valid⟩

section Answer

variable {fullReload : Bool} {base : CollectionMetadata K} {shardVersion : ChunkVersion}
  {answer : List (ChunkType K)}
  (mem : ∀ c, c ∈ answer ↔ c ∈ Q ∧ base.collVersion.combined ≤ c.version.combined)
include mem

/-- After the differ applied the chunks of `Q` at or above the collection version, one at least,
the collection version is the greatest version of `Q`. -/
theorem collVersion_foldl_of_answer (start : ReloadStart epoch base shardVersion fullReload)
    (epochs : ∀ c ∈ Q, c.version.epoch = epoch) (nonempty : answer ≠ []) :
    (∃ c ∈ Q, (answer.foldl (·.applyChunk (scmConfigDiffTracker shard) ·)
        (differ base shard shardVersion)).maxVersion = c.version) ∧
      ∀ c ∈ Q, c.version.combined ≤ (answer.foldl (·.applyChunk (scmConfigDiffTracker shard) ·)
        (differ base shard shardVersion)).maxVersion.combined := by
  obtain ⟨collAbove, collCovers, collWhich⟩ :=
    maxVersion_foldl_applyChunk (scmConfigDiffTracker shard) answer (differ base shard shardVersion)
  refine ⟨?_, fun c mc => ?_⟩
  · rcases collWhich with same | ⟨c, mc, same⟩
    · -- nothing raised it: a chunk of the answer sits at the collection version
      obtain ⟨first, mFirst⟩ := List.exists_mem_of_ne_nil answer nonempty
      have below := collCovers first mFirst
      have above := ((mem first).mp mFirst).2
      rw [same, differ_maxVersion] at below ⊢
      refine ⟨first, ((mem first).mp mFirst).1, chunkVersion_eq (UInt64.le_antisymm above below) ?_⟩
      rw [start.collEpoch, epochs first ((mem first).mp mFirst).1]
    · exact ⟨c, ((mem c).mp mc).1, same⟩
  · -- a chunk left out of the answer is below the collection version
    by_cases above : base.collVersion.combined ≤ c.version.combined
    · exact collCovers c ((mem c).mpr ⟨mc, above⟩)
    · exact UInt64.le_trans (UInt64.le_of_lt (UInt64.not_le.mp above)) collAbove

/-- The shard version `_initChunks` sets after the differ applied the chunks of `Q` at or above
the collection version, over a map that holds the shard's chunks of `Q`: at or above every
version of the shard's chunks when the start's version covers those below the collection
version, and either below the start's version or that of a chunk of the shard. -/
theorem shardVersion_of_answer (epoch : Vector UInt8 12) (fullReload : Bool)
    {currMap : OrdMap K (CachedChunkInfo K)}
    (chunks : currMap.entries.Perm ((scmConfigDiffTracker shard).trackedEntries Q))
    (shardBelow : ∀ c ∈ Q, c.shard = shard →
      c.version.combined < base.collVersion.combined → c.version.combined ≤ shardVersion.combined) :
    let md := appliedMetadata shard epoch fullReload base
      { answer.foldl (·.applyChunk (scmConfigDiffTracker shard) ·)
          (differ base shard shardVersion) with currMap }
    (∀ c ∈ Q, c.shard = shard → c.version.combined ≤ md.shardVersion.combined) ∧
      (md.shardVersion.combined ≤ shardVersion.combined ∨
        ∃ c ∈ Q, c.shard = shard ∧ md.shardVersion = c.version) := by
  obtain ⟨w, entry, shardAbove, shardCovers, shardWhich⟩ :=
    shardEntry_foldl base shard shardVersion answer
  intro md
  have shardIs : md.shardVersion =
      if fullReload = false ∧ currMap.entries = [] then ⟨0, epoch⟩ else w := by
    simp only [md, appliedMetadata_shardVersion]
    simp [entry]
  refine ⟨fun c mc onShard => ?_, ?_⟩
  · -- the shard has a chunk of `Q`, so its map is not empty and the entry stands
    have kept : (scmConfigDiffTracker shard).rangeFor c ∈ currMap.entries :=
      chunks.mem_iff.mpr (List.mem_map.mpr
        ⟨c, List.mem_filter.mpr ⟨mc, by simp [scmConfigDiffTracker, onShard]⟩, rfl⟩)
    rw [shardIs, if_neg fun reset => List.ne_nil_of_mem kept reset.2]
    by_cases above : base.collVersion.combined ≤ c.version.combined
    · exact shardCovers c ((mem c).mpr ⟨mc, above⟩) onShard
    · exact UInt64.le_trans (shardBelow c mc onShard (UInt64.not_le.mp above)) shardAbove
  · rw [shardIs]
    split_ifs
    · exact .inl UInt64.zero_le
    · rcases shardWhich with same | ⟨c, mc, onShard, same⟩
      · exact .inl (same ▸ UInt64.le_refl _)
      · exact .inr ⟨c, ((mem c).mp mc).1, onShard, same⟩

end Answer

/-- The differ loads the tiling `Q` when it starts from metadata whose cached entries, with the
chunks of the answer applied, leave exactly the shard's chunks of `Q`, whose shard version covers
the shard's chunks below the collection version, and when the answer is the chunks of `Q` at or
above the collection version, one at least. The metadata loaded is the start's with the loaded
chunks and versions and its ranges filled, and its shard version is below the start's or that
of a chunk of the shard. -/
theorem finishChunks_loaded {ns : String} {fullReload : Bool} {base : CollectionMetadata K}
    {shardVersion : ChunkVersion} {answer : List (ChunkType K)}
    (start : ReloadStart epoch base shardVersion fullReload)
    (pending : base.pendingMap.Apart CachedChunkInfo.maxKey)
    (tiles : Tiles ChunkType.min ChunkType.max Q lo hi)
    (epochs : ∀ c ∈ Q, c.version.epoch = epoch) (positive : ∀ c ∈ Q, 0 < c.version.majorVersion)
    (queried : answer.Perm (Q.filter fun c => base.collVersion.combined ≤ c.version.combined))
    (nonempty : answer ≠ [])
    (fits : ∀ e, ((e ∈ base.chunksMap.entries ∧
        ∀ c ∈ answer, ¬(scmConfigDiffTracker shard).KeyIn c e.1) ∨
        ∃ c ∈ answer.filter (scmConfigDiffTracker shard).isTracked,
          (scmConfigDiffTracker shard).rangeFor c = e) ↔
      e ∈ (scmConfigDiffTracker shard).trackedEntries Q)
    (shardBelow : ∀ c ∈ Q, c.shard = shard →
      c.version.combined < base.collVersion.combined → c.version.combined ≤ shardVersion.combined) :
    ∃ md, finishChunks ns shard epoch fullReload base
        (calculateConfigDiff (scmConfigDiffTracker shard) (differ base shard shardVersion) answer).1
        (calculateConfigDiff (scmConfigDiffTracker shard) (differ base shard shardVersion) answer).2 =
        some (.ok md) ∧ Loaded shard Q md ∧
      md = { base with
        chunksMap := md.chunksMap
        collVersion := md.collVersion
        shardVersion := md.shardVersion }.fillRanges ∧
      (md.shardVersion.combined ≤ shardVersion.combined ∨
        ∃ c ∈ Q, c.shard = shard ∧ md.shardVersion = c.version) := by
  have mem : ∀ c, c ∈ answer ↔ c ∈ Q ∧ base.collVersion.combined ≤ c.version.combined := fun c => by
    rw [queried.mem_iff, List.mem_filter, decide_eq_true_iff]
  -- the answer is of the epoch and its chunks are disjoint: the differ applies all of them
  have answerEpochs : ∀ c ∈ answer,
      c.version.epoch = (differ base shard shardVersion).maxVersion.epoch :=
    fun c mc => (epochs c ((mem c).mp mc).1).trans start.collEpoch.symm
  have apart : (answer.filter (scmConfigDiffTracker shard).isTracked).Pairwise
      fun c d => ¬(scmConfigDiffTracker shard).KeyIn d ((scmConfigDiffTracker shard).rangeFor c).1 :=
    ((queried.nodup_iff.mpr (tiles.nodup.filter _)).pairwise_of_forall_ne fun c mc d md differ =>
      (scmConfigDiffTracker shard).not_keyIn_of_ne tiles ((mem c).mp mc).1 ((mem d).mp md).1
        differ).sublist List.filter_sublist
  have applied : 0 < (calculateConfigDiff (scmConfigDiffTracker shard)
      (differ base shard shardVersion) answer).2 := by
    rw [calculateConfigDiff_snd_of_apart _ answer answerEpochs apart]
    exact_mod_cast List.length_pos_of_ne_nil nonempty
  have valid := isValid_appliedMetadata start (fun c mc => positive c ((mem c).mp mc).1) applied
  refine ⟨_, by rw [finishChunks_of_pos applied, if_pos valid], ?_⟩
  obtain ⟨-, currMap, result, members⟩ := calculateConfigDiff_of_pos _ answer applied
  simp only [differ_validDiffs] at result
  rw [result] at valid ⊢
  have chunks : currMap.entries.Perm ((scmConfigDiffTracker shard).trackedEntries Q) :=
    (List.perm_ext_iff_of_nodup currMap.nodup
      ((scmConfigDiffTracker shard).nodup_trackedEntries tiles)).mpr fun e => by
        rw [members, differ_currMap, fits]
  obtain ⟨collMem, collGe⟩ := collVersion_foldl_of_answer mem start epochs nonempty
  obtain ⟨shardGe, shardWhich⟩ := shardVersion_of_answer mem epoch fullReload chunks shardBelow
  have collPos : 0 < (answer.foldl (·.applyChunk (scmConfigDiffTracker shard) ·)
      (differ base shard shardVersion)).maxVersion.majorVersion := by
    obtain ⟨c, mc, same⟩ := collMem
    exact same ▸ positive c mc
  refine ⟨⟨wellFormed_appliedMetadata start.fresh pending
      (apart_of_perm_trackedEntries tiles chunks) valid, by simpa using chunks,
      by simpa using collMem, by simpa using collGe, by simpa using collPos, shardGe⟩, ?_, shardWhich⟩
  simpa using appliedMetadata_eq

section Reloads

variable {catalog : CatalogClient K} {ns : String} {keyPattern : BSONObj}
  {metadata : CollectionMetadata K}
  (serves : Serves catalog ns keyPattern epoch Q lo hi) (initialized : Initialized epoch metadata)
include serves initialized

/-- A full reload, from no old metadata or from old metadata of another epoch, loads `Q`: every
chunk is at or above version `0|0`. Its shard version is zero or that of a chunk of the shard. -/
theorem initChunks_of_full (shard : ShardId) (oldMetadata : Option (CollectionMetadata K))
    (started : reloadBase oldMetadata metadata = some (metadata, metadata.shardVersion, true)) :
    ∃ md, initChunks catalog ns shard oldMetadata metadata = some (.ok md) ∧ Loaded shard Q md ∧
      md = { metadata with
        chunksMap := md.chunksMap
        collVersion := md.collVersion
        shardVersion := md.shardVersion }.fillRanges ∧
      (md.shardVersion.combined = 0 ∨ ∃ c ∈ Q, c.shard = shard ∧ md.shardVersion = c.version) := by
  have floor : metadata.collVersion.combined = 0 := by rw [initialized.collVersion]
  obtain ⟨answer, answered, queried⟩ := serves.answers metadata.collVersion.combined
  have everything : ∀ c, c ∈ answer ↔ c ∈ Q := fun c => by
    simp [queried.mem_iff, floor, UInt64.zero_le]
  obtain ⟨first, mFirst, -⟩ := serves.tiles.covers lo le_rfl serves.ordered
  have fits : ∀ e, ((e ∈ metadata.chunksMap.entries ∧
      ∀ c ∈ answer, ¬(scmConfigDiffTracker shard).KeyIn c e.1) ∨
      ∃ c ∈ answer.filter (scmConfigDiffTracker shard).isTracked,
        (scmConfigDiffTracker shard).rangeFor c = e) ↔
      e ∈ (scmConfigDiffTracker shard).trackedEntries Q := fun e => by
    simp [initialized.chunks, DiffTrackerOps.trackedEntries, everything]
  rw [initChunks_eq started answered, initialized.collVersion]
  obtain ⟨md, finished, loaded, filled, which⟩ := finishChunks_loaded initialized.reloadStart
    initialized.pending_apart serves.tiles serves.epochs serves.positive
    queried (List.ne_nil_of_mem ((everything first).mpr mFirst)) fits
    fun c _ _ below => absurd below (by rw [floor]; exact UInt64.not_lt.mpr UInt64.zero_le)
  refine ⟨md, finished, loaded, filled, ?_⟩
  rcases which with below | owned
  · rw [initialized.shardVersion] at below
    exact .inl (UInt64.le_antisymm below UInt64.zero_le)
  · exact .inr owned

/-- An incremental reload, from old metadata of the epoch that loaded a tiling `P` of the same
range, loads `Q` when every chunk new in `Q` carries a version at or above the old collection
version. -/
theorem initChunks_of_incremental {old : CollectionMetadata K} {P : List (ChunkType K)}
    (oldTiles : Tiles ChunkType.min ChunkType.max P lo hi) (loaded : Loaded shard P old)
    (collEpoch : old.collVersion.epoch = epoch)
    (newer : ∀ c ∈ Q, c ∉ P → old.collVersion.combined ≤ c.version.combined) :
    ∃ md, initChunks catalog ns shard (some old) metadata = some (.ok md) ∧ Loaded shard Q md ∧
      md = { metadata with
        chunksMap := md.chunksMap
        collVersion := md.collVersion
        shardVersion := md.shardVersion }.fillRanges := by
  obtain ⟨base, shardVersion, fullReload, started, start, -, -⟩ :=
    reloadBase_start (some old) metadata initialized fun _ member _ => by
      cases member
      exact ⟨loaded.wellFormed.valid, loaded.shardVersion_nonneg⟩
  have incremental : reloadBase (some old) metadata = some
      ({ metadata with collVersion := old.collVersion, chunksMap := old.chunksMap },
        old.shardVersion, false) := by
    simp [reloadBase, ChunkVersion.hasEqualEpoch, collEpoch, initialized.collVersion,
      loaded.wellFormed.valid]
  rw [incremental, Option.some.injEq, Prod.mk.injEq, Prod.mk.injEq] at started
  obtain ⟨rfl, rfl, rfl⟩ := started
  obtain ⟨answer, answered, queried⟩ := serves.answers old.collVersion.combined
  have mem : ∀ c, c ∈ answer ↔ c ∈ Q ∧ old.collVersion.combined ≤ c.version.combined := fun c => by
    rw [queried.mem_iff, List.mem_filter, decide_eq_true_iff]
  -- the chunk at the old collection version is in the answer, or the new one covering it is
  have nonempty : answer ≠ [] := by
    obtain ⟨p, mp, top⟩ := loaded.collVersion_mem
    by_cases kept : p ∈ Q
    · exact List.ne_nil_of_mem ((mem p).mpr ⟨kept, top ▸ UInt64.le_refl _⟩)
    · obtain ⟨d, md, above, -⟩ := @exists_newer_keyIn _ _ _ (scmConfigDiffTracker shard) _ _ _ _ _
        oldTiles serves.tiles newer _ mp kept
      exact List.ne_nil_of_mem ((mem d).mpr ⟨md, above⟩)
  have fits : ∀ e, ((e ∈ old.chunksMap.entries ∧
      ∀ c ∈ answer, ¬(scmConfigDiffTracker shard).KeyIn c e.1) ∨
      ∃ c ∈ answer.filter (scmConfigDiffTracker shard).isTracked,
        (scmConfigDiffTracker shard).rangeFor c = e) ↔
      e ∈ (scmConfigDiffTracker shard).trackedEntries Q := fun e => by
    rw [loaded.chunks.mem_iff]
    exact applied_iff_mem_trackedEntries oldTiles serves.tiles newer mem e
  -- a chunk of the shard below the old collection version was there before
  have shardBelow : ∀ c ∈ Q, c.shard = shard →
      c.version.combined < old.collVersion.combined → c.version.combined ≤ old.shardVersion.combined :=
    fun c mc onShard below => by
      have cachedBefore : c ∈ P := by
        by_contra fresh
        exact UInt64.not_le.mpr below (newer c mc fresh)
      exact loaded.shardVersion_ge c cachedBefore onShard
  rw [initChunks_eq incremental answered, initialized.collVersion]
  obtain ⟨md, finished, loadedQ, filled, -⟩ := finishChunks_loaded start
    initialized.pending_apart serves.tiles serves.epochs serves.positive
    queried nonempty fits shardBelow
  exact ⟨md, finished, loadedQ, by simpa using filled⟩

end Reloads

/-- What `_initCollection` leaves in a new `CollectionMetadata` when the config server holds the
collection. -/
theorem initCollection_of_serves {catalog : CatalogClient K} {ns : String} {keyPattern : BSONObj}
    (serves : Serves catalog ns keyPattern epoch Q lo hi) :
    initCollection catalog ns .init = .ok { (CollectionMetadata.init : CollectionMetadata K) with
      keyPattern
      shardVersion := ⟨0, epoch⟩
      collVersion := ⟨0, epoch⟩ } :=
  initCollection_eq_ok.mpr ⟨_, serves.collection, rfl, rfl⟩

/-- Shard `shard0000` owns `[0, 50)` at version `1|0` and `[50, 100)` at `2|0`. -/
def beforeMigration : List (ChunkType Nat) :=
  [⟨0, 50, versionAt 0x100000000, "shard0000", by decide⟩,
    ⟨50, 100, versionAt 0x200000000, "shard0000", by decide⟩]

/-- `[50, 100)` migrated to `shard0001` at version `3|0`, and the chunk the donor keeps left at
its version. -/
def afterMigration : List (ChunkType Nat) :=
  [⟨0, 50, versionAt 0x100000000, "shard0000", by decide⟩,
    ⟨50, 100, versionAt 0x300000000, "shard0001", by decide⟩]

/-- A config server that holds `test.foo`, sharded on `a`, with the given chunks. -/
def configWith (chunks : List (ChunkType Nat)) : CatalogClient Nat where
  getCollection _ := .ok ⟨false, [("a", .scalar (.numberInt 1))], Vector.replicate 12 7⟩
  getChunks _ floor := .ok (chunks.filter fun c => floor ≤ c.version.combined)

theorem tiles_beforeMigration : Tiles ChunkType.min ChunkType.max beforeMigration 0 100 where
  nonempty := by decide
  within := by decide
  disjoint := by decide
  covers x _ below := by
    by_cases low : x < 50
    · exact ⟨_, List.mem_cons_self, Nat.zero_le x, low⟩
    · exact ⟨_, List.mem_cons_of_mem _ List.mem_cons_self, not_lt.mp low, below⟩

theorem tiles_afterMigration : Tiles ChunkType.min ChunkType.max afterMigration 0 100 where
  nonempty := by decide
  within := by decide
  disjoint := by decide
  covers x _ below := by
    by_cases low : x < 50
    · exact ⟨_, List.mem_cons_self, Nat.zero_le x, low⟩
    · exact ⟨_, List.mem_cons_of_mem _ List.mem_cons_self, not_lt.mp low, below⟩

theorem serves_afterMigration : Serves (configWith afterMigration) "test.foo"
    [("a", .scalar (.numberInt 1))] (Vector.replicate 12 7) afterMigration 0 100 where
  collection := rfl
  tiles := tiles_afterMigration
  ordered := by decide
  epochs := by decide
  positive := by decide
  answers _ := ⟨_, rfl, List.Perm.refl _⟩

/-- What `shard0000` loaded before the migration. -/
def loadedBeforeMigration : CollectionMetadata Nat :=
  CollectionMetadata.fillRanges ⟨versionAt 0x200000000, versionAt 0x200000000,
    [("a", .scalar (.numberInt 1))], .empty,
    ⟨[(0, ⟨50, versionAt 0x100000000⟩), (50, ⟨100, versionAt 0x200000000⟩)], by decide⟩, .empty⟩

theorem loaded_beforeMigration : Loaded "shard0000" beforeMigration loadedBeforeMigration where
  wellFormed :=
    { chunks := ⟨by decide, by decide⟩
      pending := ⟨by decide, by decide⟩
      ranges := ⟨by decide, by decide⟩
      coalesced := (CollectionMetadata.fillRanges_spec _ ⟨by decide, by decide⟩ rfl).2.2
      valid := by decide }
  chunks := by decide
  collVersion_mem := by decide
  collVersion_ge := by decide
  collVersion_pos := by decide
  shardVersion_ge := by decide

/-- The chunk new after the migration is above the version loaded before it. -/
theorem newer_afterMigration : ∀ c ∈ afterMigration, c ∉ beforeMigration →
    loadedBeforeMigration.collVersion.combined ≤ c.version.combined := by
  decide

/-- A reload against a config server that holds the tiling `Q` always succeeds and loads `Q`:
from no old metadata, from old metadata of another epoch, and from old metadata of the epoch that
loaded a tiling `P` of the same range, when every chunk new in `Q` carries a version at or above
the old collection version. In the metadata loaded for a sharded collection, `keyBelongsToMe`
tells exactly the keys of the shard's chunks of `Q`. -/
theorem makeCollectionMetadata_loads {catalog : CatalogClient K} {ns : String}
    {keyPattern : BSONObj} (serves : Serves catalog ns keyPattern epoch Q lo hi) (shard : ShardId)
    (oldMetadata : Option (CollectionMetadata K))
    (fits : ∀ old ∈ oldMetadata, old.collVersion.epoch = epoch → ∃ P,
      Tiles ChunkType.min ChunkType.max P lo hi ∧ Loaded shard P old ∧
        ∀ c ∈ Q, c ∉ P → old.collVersion.combined ≤ c.version.combined) :
    ∃ md, makeCollectionMetadata catalog ns shard oldMetadata .init = some (.ok md) ∧
      Loaded shard Q md ∧ md.keyPattern = keyPattern ∧
      (keyPattern ≠ [] → ∀ key, md.keyBelongsToMe key = true ↔
        ∃ c ∈ Q, c.shard = shard ∧ c.min ≤ key ∧ key < c.max) := by
  have initialized : Initialized epoch { (CollectionMetadata.init : CollectionMetadata K) with
      keyPattern
      shardVersion := ⟨0, epoch⟩
      collVersion := ⟨0, epoch⟩ } := ⟨rfl, rfl, rfl, rfl, rfl⟩
  -- the reload is full unless the old metadata is of the epoch
  have loads : ∃ md, initChunks catalog ns shard oldMetadata { (CollectionMetadata.init :
      CollectionMetadata K) with
        keyPattern
        shardVersion := ⟨0, epoch⟩
        collVersion := ⟨0, epoch⟩ } = some (.ok md) ∧ Loaded shard Q md ∧ md.keyPattern = keyPattern := by
    cases oldMetadata with
    | none =>
        obtain ⟨md, loaded, loadedQ, filled, -⟩ := initChunks_of_full serves initialized shard none rfl
        exact ⟨md, loaded, loadedQ, by rw [filled]; simp⟩
    | some old =>
        by_cases sameEpoch : old.collVersion.epoch = epoch
        · obtain ⟨P, oldTiles, loaded, newer⟩ := fits old rfl sameEpoch
          obtain ⟨md, loadedMd, loadedQ, filled⟩ :=
            initChunks_of_incremental serves initialized oldTiles loaded sameEpoch newer
          exact ⟨md, loadedMd, loadedQ, by rw [filled]; simp⟩
        · obtain ⟨md, loaded, loadedQ, filled, -⟩ := initChunks_of_full serves initialized shard
            (some old) (by simp [reloadBase, ChunkVersion.hasEqualEpoch, sameEpoch])
          exact ⟨md, loaded, loadedQ, by rw [filled]; simp⟩
  obtain ⟨md, loaded, loadedQ, keyPatternIs⟩ := loads
  refine ⟨md, by rw [makeCollectionMetadata, initCollection_of_serves serves]; exact loaded,
    loadedQ, keyPatternIs, fun sharded => loadedQ.keyBelongsToMe_iff (keyPatternIs ▸ sharded)⟩

theorem makeCollectionMetadata_loads_afterMigration :
    ∃ md, makeCollectionMetadata (configWith afterMigration) "test.foo" "shard0000"
        (some loadedBeforeMigration) .init = some (.ok md) ∧
      Loaded "shard0000" afterMigration md ∧ md.keyPattern = [("a", .scalar (.numberInt 1))] ∧
      ([("a", .scalar (.numberInt 1))] ≠ ([] : BSONObj) → ∀ key, md.keyBelongsToMe key = true ↔
        ∃ c ∈ afterMigration, c.shard = "shard0000" ∧ c.min ≤ key ∧ key < c.max) :=
  makeCollectionMetadata_loads serves_afterMigration "shard0000" (some loadedBeforeMigration)
    fun _ member _ => by
      cases member
      exact ⟨beforeMigration, tiles_beforeMigration, loaded_beforeMigration, newer_afterMigration⟩

/-- `fillRanges` reads no version: setting the shard version before or after it is the same. -/
theorem fillRanges_with_shardVersion (md : CollectionMetadata K) (shardVersion : ChunkVersion) :
    { md with shardVersion }.fillRanges = { md.fillRanges with shardVersion } := by
  unfold CollectionMetadata.fillRanges
  split_ifs <;> rfl

/-- An incremental reload from metadata that loaded the tiling `P` agrees with a full reload in
all but the shard version: the same chunks, ranges, collection version and key pattern. The
incremental shard version is at or above the full one, and can be above it: the old shard version
stays while the shard keeps a chunk, even once the chunk that carried it moved away. -/
theorem reload_incremental_eq_full {catalog : CatalogClient K} {ns : String}
    {keyPattern : BSONObj} (serves : Serves catalog ns keyPattern epoch Q lo hi) (shard : ShardId)
    {old : CollectionMetadata K} {P : List (ChunkType K)}
    (oldTiles : Tiles ChunkType.min ChunkType.max P lo hi) (loaded : Loaded shard P old)
    (collEpoch : old.collVersion.epoch = epoch)
    (newer : ∀ c ∈ Q, c ∉ P → old.collVersion.combined ≤ c.version.combined) :
    ∃ full incremental,
      makeCollectionMetadata catalog ns shard none .init = some (.ok full) ∧
      makeCollectionMetadata catalog ns shard (some old) .init = some (.ok incremental) ∧
      incremental = { full with shardVersion := incremental.shardVersion } ∧
      full.shardVersion.combined ≤ incremental.shardVersion.combined := by
  have initialized : Initialized epoch { (CollectionMetadata.init : CollectionMetadata K) with
      keyPattern
      shardVersion := ⟨0, epoch⟩
      collVersion := ⟨0, epoch⟩ } := ⟨rfl, rfl, rfl, rfl, rfl⟩
  obtain ⟨full, fullLoaded, fullQ, fullFilled, fullShard⟩ :=
    initChunks_of_full serves initialized shard none rfl
  obtain ⟨incremental, incrementalLoaded, incrementalQ, incrementalFilled⟩ :=
    initChunks_of_incremental serves initialized oldTiles loaded collEpoch newer
  refine ⟨full, incremental, ?_, ?_, ?_, ?_⟩
  · rw [makeCollectionMetadata, initCollection_of_serves serves]
    exact fullLoaded
  · rw [makeCollectionMetadata, initCollection_of_serves serves]
    exact incrementalLoaded
  · -- both fill their ranges from the same chunks over the same new metadata
    rw [incrementalFilled, fullFilled, ← fillRanges_with_shardVersion,
      fullQ.chunksMap_eq incrementalQ, fullQ.collVersion_eq incrementalQ serves.epochs]
    simp
  · rcases fullShard with zero | ⟨c, mc, onShard, same⟩
    · rw [zero]
      exact UInt64.zero_le
    · rw [same]
      exact incrementalQ.shardVersion_ge c mc onShard

theorem reload_incremental_eq_full_afterMigration :
    ∃ full incremental,
      makeCollectionMetadata (configWith afterMigration) "test.foo" "shard0000" none .init =
        some (.ok full) ∧
      makeCollectionMetadata (configWith afterMigration) "test.foo" "shard0000"
        (some loadedBeforeMigration) .init = some (.ok incremental) ∧
      incremental = { full with shardVersion := incremental.shardVersion } ∧
      full.shardVersion.combined ≤ incremental.shardVersion.combined :=
  reload_incremental_eq_full serves_afterMigration "shard0000" tiles_beforeMigration
    loaded_beforeMigration rfl newer_afterMigration

/-- The incremental shard version can be strictly above the full one: the full reload reads `1|0`
off the chunk the shard kept, the incremental one keeps the `2|0` of the chunk that moved away. -/
theorem reload_incremental_above_full_afterMigration :
    (makeCollectionMetadata (configWith afterMigration) "test.foo" "shard0000" none .init).map
        (Except.map (·.shardVersion.combined)) = some (.ok 0x100000000) ∧
      (makeCollectionMetadata (configWith afterMigration) "test.foo" "shard0000"
        (some loadedBeforeMigration) .init).map (Except.map (·.shardVersion.combined)) =
        some (.ok 0x200000000) := by
  decide

end Loading

/-- Neither `invariant` of `_initChunks` ever fails, whatever the config server answers, as long
as the old metadata is valid with a shard version whose major part is not negative and every
chunk returned has a version with a positive major part. -/
theorem makeCollectionMetadata_isSome (catalog : CatalogClient K) (ns : String) (shard : ShardId)
    (oldMetadata : Option (CollectionMetadata K))
    (valid : ∀ old ∈ oldMetadata, old.isValid = true ∧ 0 ≤ old.shardVersion.majorVersion)
    (positive : ∀ floor chunks, catalog.getChunks ns floor = .ok chunks →
      ∀ c ∈ chunks, 0 < c.version.majorVersion) :
    (makeCollectionMetadata catalog ns shard oldMetadata .init).isSome = true := by
  unfold makeCollectionMetadata
  cases collection : initCollection catalog ns CollectionMetadata.init with
  | error status => rfl
  | ok metadata =>
      show (initChunks catalog ns shard oldMetadata metadata).isSome = true
      obtain ⟨collInfo, -, -, initialized, -⟩ := initialized_of_initCollection collection
      obtain ⟨base, shardVersion, fullReload, started, start, -, -⟩ :=
        reloadBase_start oldMetadata metadata initialized fun old member _ => valid old member
      cases answer : catalog.getChunks ns base.collVersion.combined with
      | error status => simp [initChunks, started, answer]
      | ok chunks =>
          rw [initChunks_eq started answer]
          simp only [initialized.collVersion]
          by_cases applied : 0 < (calculateConfigDiff (scmConfigDiffTracker shard)
            (differ base shard shardVersion) chunks).2
          · rw [finishChunks_of_pos applied,
              if_pos (isValid_appliedMetadata start (positive _ chunks answer) applied)]
            rfl
          · exact finishChunks_isSome_of_nonpos applied

theorem makeCollectionMetadata_isSome_afterMigration :
    (makeCollectionMetadata (configWith afterMigration) "test.foo" "shard0000"
      (some loadedBeforeMigration) .init).isSome = true :=
  makeCollectionMetadata_isSome (configWith afterMigration) "test.foo" "shard0000"
    (some loadedBeforeMigration)
    (fun _ member => by
      cases member
      exact ⟨loaded_beforeMigration.wellFormed.valid, loaded_beforeMigration.shardVersion_nonneg⟩)
    fun floor chunks answered => by
      cases answered
      intro c member
      exact serves_afterMigration.positive c (List.mem_of_mem_filter member)

end MetadataLoader

end FastMongo.Sharding

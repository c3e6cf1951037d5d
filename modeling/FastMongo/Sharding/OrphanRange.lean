import FastMongo.Lib.Intervals
import FastMongo.Sharding.CollectionMetadata

/-!
`getNextOrphanRange` of `db/s/collection_metadata.cpp`, which the orphan cleanup walks the key
space with. From a lookup key it steps over every chunk and pending range that holds the key,
to that range's max key, until it reaches a key neither holds; it then reports the range around
that key, bounded by the nearest chunk and pending range on either side.

Over chunk and pending maps whose ranges are apart, the answer is exact: none only when every
key from the lookup key up to `getMaxKey()` is held; otherwise a range that no chunk or pending
range meets, that holds the first key from the lookup key on that none of them holds, and whose
bounds are `getMinKey()`, `getMaxKey()` or ends of chunks and pending ranges. Each step passes
the end of one range, so the loop never needs more turns than there are ranges.
-/

namespace FastMongo.Sharding

open RangeMap

variable {K : Type} [LinearOrder K]

namespace CollectionMetadata

section Neighbours

variable {m : OrdMap K (CachedChunkInfo K)} {key : K}

theorem neighbours_of_ne_nil (nonempty : m.entries ≠ []) :
    neighbours m key =
      (if m.upperBound key ≠ 0 then m.entries[m.upperBound key - 1]? else none,
        m.entries[m.upperBound key]?) := by
  simp [neighbours, List.isEmpty_iff, nonempty]

theorem neighbours_of_nil (empty : m.entries = []) : neighbours m key = (none, none) := by
  simp [neighbours, empty]

/-- The entry before `upper_bound(key)` starts at or before the key. -/
theorem neighbours_fst_eq_some {l : K × CachedChunkInfo K} (found : (neighbours m key).1 = some l) :
    l ∈ m.entries ∧ l.1 ≤ key := by
  by_cases empty : m.entries = []
  · simp [neighbours_of_nil empty] at found
  rw [neighbours_of_ne_nil empty] at found
  split_ifs at found with stepped
  obtain ⟨floorIn, rfl⟩ := List.getElem?_eq_some_iff.mp found
  exact ⟨List.getElem_mem _, m.floor_le floorIn stepped⟩

/-- The entry at `upper_bound(key)` starts after the key. -/
theorem neighbours_snd_eq_some {u : K × CachedChunkInfo K} (found : (neighbours m key).2 = some u) :
    u ∈ m.entries ∧ key < u.1 := by
  by_cases empty : m.entries = []
  · simp [neighbours_of_nil empty] at found
  rw [neighbours_of_ne_nil empty] at found
  obtain ⟨upperIn, rfl⟩ := List.getElem?_eq_some_iff.mp found
  exact ⟨List.getElem_mem _, m.lt_getElem_upperBound upperIn⟩

/-- Over ranges that are apart, a range that starts at or before the key ends by the end of the
entry before `upper_bound(key)`. -/
theorem neighbours_fst_of_le (intervals : m.Apart CachedChunkInfo.maxKey)
    {e : K × CachedChunkInfo K} (member : e ∈ m.entries) (starts : e.1 ≤ key) :
    ∃ l, (neighbours m key).1 = some l ∧ e.2.maxKey ≤ l.2.maxKey := by
  obtain ⟨i, h, rfl⟩ := List.getElem_of_mem member
  obtain ⟨stepped, floorIn, ends⟩ := intervals.hi_le_floor h starts
  rw [neighbours_of_ne_nil (List.ne_nil_of_mem member), if_pos stepped,
    List.getElem?_eq_getElem floorIn]
  exact ⟨_, rfl, ends⟩

/-- A range that starts after the key starts at or after the entry at `upper_bound(key)`. -/
theorem neighbours_snd_of_lt {e : K × CachedChunkInfo K} (member : e ∈ m.entries)
    (after : key < e.1) : ∃ u, (neighbours m key).2 = some u ∧ u.1 ≤ e.1 := by
  obtain ⟨i, h, rfl⟩ := List.getElem_of_mem member
  have upper := m.upperBound_le_of_lt h after
  have upperIn : m.upperBound key < m.entries.length := lt_of_le_of_lt upper h
  rw [neighbours_of_ne_nil (List.ne_nil_of_mem member), List.getElem?_eq_getElem upperIn]
  refine ⟨_, rfl, ?_⟩
  rcases Nat.lt_or_ge (m.upperBound key) i with earlier | same
  · exact (m.getElem_lt_getElem h earlier).le
  · have same : m.upperBound key = i := by omega
    simp only [same, le_refl]

/-- Over ranges that are apart, no range holds a key from the end of the entry before
`upper_bound(key)` to the start of the entry at it. -/
theorem not_covers_between (intervals : m.Apart CachedChunkInfo.maxKey) {lo hi k : K}
    (lower : ∀ l, (neighbours m key).1 = some l → l.2.maxKey ≤ lo)
    (upper : ∀ u, (neighbours m key).2 = some u → hi ≤ u.1) (starts : lo ≤ k) (ends : k < hi) :
    ¬m.Covers CachedChunkInfo.maxKey k := by
  rintro ⟨e, member, holds, reaches⟩
  by_cases before : e.1 ≤ key
  · -- the range ends by the end of the entry before the key, at or below `lo`
    obtain ⟨l, found, within⟩ := neighbours_fst_of_le intervals member before
    exact absurd ((within.trans (lower l found)).trans starts) (not_le.mpr reaches)
  · -- the range starts at or after the entry after the key, at or above `hi`
    obtain ⟨u, found, within⟩ := neighbours_snd_of_lt member (not_le.mp before)
    exact absurd ((upper u found).trans (within.trans holds)) (not_le.mpr ends)

end Neighbours

section Bounds

variable {key bound : K} {entry : Option (K × CachedChunkInfo K)}

/-- Where the loop goes on after a key some range holds: that range's max key. -/
theorem continueAfter_eq_some {next : K} (continued : continueAfter entry key = some next) :
    ∃ l, entry = some l ∧ key < l.2.maxKey ∧ next = l.2.maxKey := by
  cases entry with
  | none => cases continued
  | some l =>
      rw [continueAfter] at continued
      split_ifs at continued with reaches
      exact ⟨l, rfl, reaches, (Option.some.inj continued).symm⟩

theorem continueAfter_eq_none (stopped : continueAfter entry key = none) :
    ∀ l, entry = some l → l.2.maxKey ≤ key := by
  rintro l rfl
  rw [continueAfter] at stopped
  split_ifs at stopped with reaches
  exact not_lt.mp reaches

theorem le_raiseMinKey : bound ≤ raiseMinKey bound entry := by
  cases entry with
  | none => exact le_rfl
  | some l =>
      rw [raiseMinKey]
      split_ifs with above
      · exact above.le
      · exact le_rfl

theorem maxKey_le_raiseMinKey {l : K × CachedChunkInfo K} (found : entry = some l) :
    l.2.maxKey ≤ raiseMinKey bound entry := by
  subst found
  rw [raiseMinKey]
  split_ifs with above
  · exact le_rfl
  · exact not_lt.mp above

theorem raiseMinKey_le {x : K} (below : bound ≤ x) (ends : ∀ l, entry = some l → l.2.maxKey ≤ x) :
    raiseMinKey bound entry ≤ x := by
  cases entry with
  | none => exact below
  | some l =>
      rw [raiseMinKey]
      split_ifs
      · exact ends l rfl
      · exact below

theorem raiseMinKey_cases (bound : K) (entry : Option (K × CachedChunkInfo K)) :
    raiseMinKey bound entry = bound ∨ ∃ l, entry = some l ∧ raiseMinKey bound entry = l.2.maxKey := by
  cases entry with
  | none => exact .inl rfl
  | some l =>
      rw [raiseMinKey]
      split_ifs
      · exact .inr ⟨l, rfl, rfl⟩
      · exact .inl rfl

theorem lowerMaxKey_le : lowerMaxKey bound entry ≤ bound := by
  cases entry with
  | none => exact le_rfl
  | some u =>
      rw [lowerMaxKey]
      split_ifs with below
      · exact below.le
      · exact le_rfl

theorem lowerMaxKey_le_minKey {u : K × CachedChunkInfo K} (found : entry = some u) :
    lowerMaxKey bound entry ≤ u.1 := by
  subst found
  rw [lowerMaxKey]
  split_ifs with below
  · exact le_rfl
  · exact not_lt.mp below

theorem lt_lowerMaxKey {x : K} (below : x < bound) (starts : ∀ u, entry = some u → x < u.1) :
    x < lowerMaxKey bound entry := by
  cases entry with
  | none => exact below
  | some u =>
      rw [lowerMaxKey]
      split_ifs
      · exact starts u rfl
      · exact below

theorem lowerMaxKey_cases (bound : K) (entry : Option (K × CachedChunkInfo K)) :
    lowerMaxKey bound entry = bound ∨ ∃ u, entry = some u ∧ lowerMaxKey bound entry = u.1 := by
  cases entry with
  | none => exact .inl rfl
  | some u =>
      rw [lowerMaxKey]
      split_ifs
      · exact .inr ⟨u, rfl, rfl⟩
      · exact .inl rfl

end Bounds

/-- A chunk or a pending range holds `k`. -/
def KeyHeld (md : CollectionMetadata K) (k : K) : Prop :=
  md.chunksMap.Covers CachedChunkInfo.maxKey k ∨ md.pendingMap.Covers CachedChunkInfo.maxKey k

/-- The chunks and pending ranges that reach past `k`: the loop of `getNextOrphanRange` passes the
end of one of them at each step. -/
def pastCount (md : CollectionMetadata K) (k : K) : Nat :=
  md.chunksMap.entries.countP (fun e => decide (k < e.2.maxKey)) +
    md.pendingMap.entries.countP fun e => decide (k < e.2.maxKey)

/-- What `getNextOrphanRange` answers for the keys from `orig` on: none only when every key up to
`maxKey` is held; otherwise a range within `[minKey, maxKey)` that holds no held key, holds the
first key from `orig` on that is not held, and is bounded by `minKey`, `maxKey` or ends of the
ranges. -/
def OrphanAnswer (md : CollectionMetadata K) (minKey maxKey orig : K) : Option (K × K) → Prop
  | none => ∀ k, orig ≤ k → k < maxKey → md.KeyHeld k
  | some (lo, hi) =>
      minKey ≤ lo ∧ hi ≤ maxKey ∧ (∀ k, lo ≤ k → k < hi → ¬md.KeyHeld k) ∧
        (∃ k, orig ≤ k ∧ lo ≤ k ∧ k < hi ∧ ∀ k', orig ≤ k' → k' < k → md.KeyHeld k') ∧
        (lo = minKey ∨ ∃ e ∈ md.chunksMap.entries ++ md.pendingMap.entries, e.2.maxKey = lo) ∧
        (hi = maxKey ∨ ∃ e ∈ md.chunksMap.entries ++ md.pendingMap.entries, e.1 = hi)

section Loop

variable {md : CollectionMetadata K}

/-- Passing the end of a range that reaches past `k` leaves fewer ranges reaching past the key. -/
theorem countP_reaching_lt {l : List (K × CachedChunkInfo K)} {e : K × CachedChunkInfo K}
    (member : e ∈ l) {k : K} (reaches : k < e.2.maxKey) :
    l.countP (fun e' => decide (e.2.maxKey < e'.2.maxKey)) <
      l.countP fun e' => decide (k < e'.2.maxKey) := by
  have split := countP_eq_add_of_imp (p := fun e' => decide (e.2.maxKey < e'.2.maxKey))
    (q := fun e' => decide (k < e'.2.maxKey))
    (fun e' past => by simpa using reaches.trans (by simpa using past)) l
  have passed : 0 < l.countP fun e' =>
      decide (k < e'.2.maxKey) && !decide (e.2.maxKey < e'.2.maxKey) :=
    List.countP_pos_iff.mpr ⟨e, member, by simp [reaches]⟩
  omega

theorem countP_reaching_le (l : List (K × CachedChunkInfo K)) {k k' : K} (ordered : k ≤ k') :
    l.countP (fun e => decide (k' < e.2.maxKey)) ≤ l.countP fun e => decide (k < e.2.maxKey) :=
  List.countP_mono_left fun e _ past => by
    simpa using lt_of_le_of_lt ordered (by simpa using past)

/-- Every key from `orig` to the end of a range that holds the lookup key is held, when every key
from `orig` to the lookup key is. -/
theorem held_through {orig key : K} (held : ∀ k, orig ≤ k → k < key → md.KeyHeld k)
    {e : K × CachedChunkInfo K} (starts : e.1 ≤ key)
    (holds : ∀ k, e.1 ≤ k → k < e.2.maxKey → md.KeyHeld k) :
    ∀ k, orig ≤ k → k < e.2.maxKey → md.KeyHeld k := by
  intro k from' below
  by_cases earlier : k < key
  · exact held k from' earlier
  · exact holds k (starts.trans (not_lt.mp earlier)) below

/-- The bounds reported around a key that no range holds answer for the keys from `orig` on. -/
theorem orphanBounds_answer (chunks : md.chunksMap.Apart CachedChunkInfo.maxKey)
    (pending : md.pendingMap.Apart CachedChunkInfo.maxKey) {minKey maxKey orig key : K}
    (above : minKey ≤ orig) (reached : orig ≤ key) (held : ∀ k, orig ≤ k → k < key → md.KeyHeld k)
    (below : key < maxKey)
    (chunkFree : continueAfter (neighbours md.chunksMap key).1 key = none)
    (pendingFree : continueAfter (neighbours md.pendingMap key).1 key = none) :
    md.OrphanAnswer minKey maxKey orig
      (some (orphanBounds minKey maxKey (neighbours md.chunksMap key)
        (neighbours md.pendingMap key))) := by
  set chunkNeighbours := neighbours md.chunksMap key with chunkEq
  set pendingNeighbours := neighbours md.pendingMap key with pendingEq
  set lo := raiseMinKey (raiseMinKey minKey chunkNeighbours.1) pendingNeighbours.1
  set hi := lowerMaxKey (lowerMaxKey maxKey chunkNeighbours.2) pendingNeighbours.2
  -- the ranges on either side of the key end by `lo` and start from `hi`
  have chunkLower : ∀ l, chunkNeighbours.1 = some l → l.2.maxKey ≤ lo := fun l found =>
    (maxKey_le_raiseMinKey found).trans le_raiseMinKey
  have pendingLower : ∀ l, pendingNeighbours.1 = some l → l.2.maxKey ≤ lo := fun l found =>
    maxKey_le_raiseMinKey found
  have chunkUpper : ∀ u, chunkNeighbours.2 = some u → hi ≤ u.1 := fun u found =>
    lowerMaxKey_le.trans (lowerMaxKey_le_minKey found)
  have pendingUpper : ∀ u, pendingNeighbours.2 = some u → hi ≤ u.1 := fun u found =>
    lowerMaxKey_le_minKey found
  have keyAbove : lo ≤ key :=
    raiseMinKey_le (raiseMinKey_le (above.trans reached) (continueAfter_eq_none chunkFree))
      (continueAfter_eq_none pendingFree)
  have keyBelow : key < hi :=
    lt_lowerMaxKey (lt_lowerMaxKey below fun _ found => (neighbours_snd_eq_some found).2)
      fun _ found => (neighbours_snd_eq_some found).2
  refine ⟨le_raiseMinKey.trans le_raiseMinKey, lowerMaxKey_le.trans lowerMaxKey_le,
    fun k starts ends => ?_, ⟨key, reached, keyAbove, keyBelow, held⟩, ?_, ?_⟩
  · rintro (inChunk | inPending)
    · exact not_covers_between chunks chunkLower chunkUpper starts ends inChunk
    · exact not_covers_between pending pendingLower pendingUpper starts ends inPending
  · -- `lo` is `getMinKey()` or the end of the entry before the key in one of the maps
    rcases raiseMinKey_cases (raiseMinKey minKey chunkNeighbours.1) pendingNeighbours.1
      with same | ⟨l, found, same⟩
    · rcases raiseMinKey_cases minKey chunkNeighbours.1 with same' | ⟨l, found, same'⟩
      · exact .inl (same.trans same')
      · exact .inr ⟨l, List.mem_append_left _ (neighbours_fst_eq_some found).1,
          (same.trans same').symm⟩
    · exact .inr ⟨l, List.mem_append_right _ (neighbours_fst_eq_some found).1, same.symm⟩
  · -- `hi` is `getMaxKey()` or the start of the entry after the key in one of the maps
    rcases lowerMaxKey_cases (lowerMaxKey maxKey chunkNeighbours.2) pendingNeighbours.2
      with same | ⟨u, found, same⟩
    · rcases lowerMaxKey_cases maxKey chunkNeighbours.2 with same' | ⟨u, found, same'⟩
      · exact .inl (same.trans same')
      · exact .inr ⟨u, List.mem_append_left _ (neighbours_snd_eq_some found).1,
          (same.trans same').symm⟩
    · exact .inr ⟨u, List.mem_append_right _ (neighbours_snd_eq_some found).1, same.symm⟩

/-- The loop of `getNextOrphanRange`, from a lookup key up to which every key from `orig` is held,
with more turns left than ranges reach past the key, answers for the keys from `orig` on. -/
theorem orphanRangeLoop_spec (chunks : md.chunksMap.Apart CachedChunkInfo.maxKey)
    (pending : md.pendingMap.Apart CachedChunkInfo.maxKey) {minKey maxKey orig : K}
    (above : minKey ≤ orig) :
    ∀ (fuel : Nat) (key : K), orig ≤ key → (∀ k, orig ≤ k → k < key → md.KeyHeld k) →
      md.pastCount key < fuel →
      md.OrphanAnswer minKey maxKey orig (md.orphanRangeLoop minKey maxKey fuel key)
  | 0, _, _, _, turns => absurd turns (Nat.not_lt_zero _)
  | fuel + 1, key, reached, held, turns => by
      rw [orphanRangeLoop]
      by_cases below : key < maxKey
      · rw [if_pos below]
        cases chunkNext : continueAfter (neighbours md.chunksMap key).1 key with
        | some next =>
            -- a chunk holds the key: the loop goes on from its end
            obtain ⟨c, found, reaches, rfl⟩ := continueAfter_eq_some chunkNext
            obtain ⟨member, starts⟩ := neighbours_fst_eq_some found
            have fewer := countP_reaching_lt member reaches
            have others := countP_reaching_le md.pendingMap.entries reaches.le
            refine orphanRangeLoop_spec chunks pending above fuel c.2.maxKey
              (reached.trans reaches.le)
              (held_through held starts fun k from' ends => .inl ⟨c, member, from', ends⟩) ?_
            unfold pastCount at turns ⊢
            omega
        | none =>
            cases pendingNext : continueAfter (neighbours md.pendingMap key).1 key with
            | some next =>
                -- a pending range holds the key: the loop goes on from its end
                obtain ⟨p, found, reaches, rfl⟩ := continueAfter_eq_some pendingNext
                obtain ⟨member, starts⟩ := neighbours_fst_eq_some found
                have fewer := countP_reaching_lt member reaches
                have others := countP_reaching_le md.chunksMap.entries reaches.le
                refine orphanRangeLoop_spec chunks pending above fuel p.2.maxKey
                  (reached.trans reaches.le)
                  (held_through held starts fun k from' ends => .inr ⟨p, member, from', ends⟩) ?_
                unfold pastCount at turns ⊢
                omega
            | none =>
                exact orphanBounds_answer chunks pending above reached held below chunkNext
                  pendingNext
      · -- the lookup key reached `getMaxKey()`: every key before it is held
        rw [if_neg below]
        exact fun k from' ends => held k from' (lt_of_lt_of_le ends (not_lt.mp below))

/-- The turns `getNextOrphanRange` gives its loop are enough. -/
theorem pastCount_lt_fuel (md : CollectionMetadata K) (key : K) :
    md.pastCount key < md.chunksMap.entries.length + md.pendingMap.entries.length + 1 := by
  have chunkCount := List.countP_le_length (p := fun e => decide (key < e.2.maxKey))
    (l := md.chunksMap.entries)
  have pendingCount := List.countP_le_length (p := fun e => decide (key < e.2.maxKey))
    (l := md.pendingMap.entries)
  unfold pastCount
  omega

end Loop

/-- Over chunk and pending maps whose ranges are apart, `getNextOrphanRange` of a sharded
collection from a lookup key at or above `getMinKey()` answers exactly: none only when chunks
and pending ranges hold every key from the lookup key up to `getMaxKey()`; otherwise a range
within `[getMinKey(), getMaxKey())` that no chunk or pending range meets, that holds the first
key from the lookup key on that none of them holds, and whose bounds are `getMinKey()`,
`getMaxKey()` or ends of chunks and pending ranges. -/
theorem getNextOrphanRange_spec (md : CollectionMetadata K) (sharded : md.keyPattern ≠ [])
    (chunks : md.chunksMap.Apart CachedChunkInfo.maxKey)
    (pending : md.pendingMap.Apart CachedChunkInfo.maxKey) {minKey maxKey orig : K}
    (above : minKey ≤ orig) :
    (md.getNextOrphanRange minKey maxKey orig = none →
      ∀ k, orig ≤ k → k < maxKey → md.KeyHeld k) ∧
    ∀ lo hi, md.getNextOrphanRange minKey maxKey orig = some (lo, hi) →
      minKey ≤ lo ∧ hi ≤ maxKey ∧ (∀ k, lo ≤ k → k < hi → ¬md.KeyHeld k) ∧
        (∃ k, orig ≤ k ∧ lo ≤ k ∧ k < hi ∧ ∀ k', orig ≤ k' → k' < k → md.KeyHeld k') ∧
        (lo = minKey ∨ ∃ e ∈ md.chunksMap.entries ++ md.pendingMap.entries, e.2.maxKey = lo) ∧
        (hi = maxKey ∨ ∃ e ∈ md.chunksMap.entries ++ md.pendingMap.entries, e.1 = hi) := by
  -- no key is below the lookup key and from it, so the loop starts with nothing held yet
  have answer : md.OrphanAnswer minKey maxKey orig (md.getNextOrphanRange minKey maxKey orig) := by
    rw [getNextOrphanRange, if_neg (by simpa using sharded)]
    exact orphanRangeLoop_spec chunks pending above _ orig le_rfl
      (fun k from' before => absurd from' (not_le.mpr before)) (pastCount_lt_fuel md orig)
  constructor
  · intro none
    rw [none] at answer
    exact answer
  · intro lo hi found
    rw [found] at answer
    exact answer

theorem getNextOrphanRange_threeChunks :
    threeChunks.getNextOrphanRange 0 100 5 = some (20, 30) ∧
      ∀ k, 20 ≤ k → k < 30 → ¬threeChunks.KeyHeld k :=
  ⟨by decide, ((getNextOrphanRange_spec threeChunks (by decide) ⟨by decide, by decide⟩
    ⟨by decide, by decide⟩ (show (0 : Nat) ≤ 5 by decide)).2 20 30
      (show threeChunks.getNextOrphanRange 0 100 5 = some (20, 30) by decide)).2.2.1⟩

end CollectionMetadata

end FastMongo.Sharding

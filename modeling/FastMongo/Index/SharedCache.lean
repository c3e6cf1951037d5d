import Mathlib.Data.List.Perm.Subperm
import Mathlib.Data.List.Nodup
import FastMongo.Index.Refinement
import FastMongo.Index.MultiIndexBlock

/-!
The field offset cache that the indexes of an index build share. When a generator's undotted
fields have distinct names, the cache read and the Phase 1 scan fill each undotted field whose
name has an element that is not an array with the first such element, and no other field, from
any sound cache; the cache stays sound: each slot it sets holds the offset of the first non-array
element of a name that hashes to the slot. Generators that share a cache then compute what each
computes with a fresh one.
-/

namespace FastMongo.Index

open FastMongo.Bson

/-- The first top-level element of `name` that is not an array. -/
def firstNonArray (obj : BSONObj) (name : String) : Option Located :=
  (locateFrom 4 obj).find? fun e => e.name == name && e.value.type != .array

/-- Every slot the cache sets holds the offset of the first non-array element of a name that
hashes to that slot. -/
def CacheSound (obj : BSONObj) (cache : FieldOffsetCache) : Prop :=
  ∀ slot, cache.offsets slot ≠ 0 → ∃ e, firstNonArray obj e.name = some e ∧
    e.offset = cache.offsets slot ∧ computeCacheSlot e.name = slot

/-- An undotted field filled with the first non-array element of its name. -/
def CanonicalFill (gen : BtreeKeyGeneratorV1) (obj : BSONObj) (fill : Nat × Value) : Prop :=
  ∃ info ∈ gen.simpleFields, ∃ e, firstNonArray obj info.name = some e ∧
    fill = (info.fieldIndex, e.value)

/-- The undotted fields of a generator have distinct names. -/
def BtreeKeyGeneratorV1.DistinctSimpleNames (gen : BtreeKeyGeneratorV1) : Prop :=
  (gen.simpleFields.map SimpleFieldInfo.name).Nodup

/-- The prefill has filled exactly the undotted fields whose name has a non-array element, each
with the first one. -/
structure CanonicalPrefill (gen : BtreeKeyGeneratorV1) (obj : BSONObj) (state : Prefill)
    (fills : List (Nat × Value)) : Prop where
  filledBy : FilledBy gen (CanonicalFill gen obj) state fills
  complete : ∀ info ∈ gen.simpleFields, ∀ e, firstNonArray obj info.name = some e →
    info.fieldIndex ∈ fills.map Prod.fst

/-- What holds of Phase 1 once it has scanned the elements `seen`: only canonical fills, counted
by `foundCount`, every undotted field done whose name has a non-array element among `seen`, and
a sound cache. -/
structure Phase1Inv (gen : BtreeKeyGeneratorV1) (obj : BSONObj) (seen : List Located)
    (state : Phase1State) (fills : List (Nat × Value)) : Prop where
  filledBy : FilledBy gen (CanonicalFill gen obj) state.prefill fills
  count : state.foundCount = fills.length
  seenDone : ∀ info ∈ gen.simpleFields, ∀ e ∈ seen, e.name = info.name →
    e.value.type ≠ .array → info.fieldIndex ∈ fills.map Prod.fst
  cache : CacheSound obj state.cache

theorem firstNonArray_spec {obj : BSONObj} {name : String} {e : Located}
    (found : firstNonArray obj name = some e) :
    e ∈ locateFrom 4 obj ∧ e.name = name ∧ e.value.type ≠ .array := by
  have holds := List.find?_some found
  simp only [Bool.and_eq_true, beq_iff_eq, bne_iff_ne, ne_eq] at holds
  exact ⟨List.mem_of_find?_eq_some found, holds.1, holds.2⟩

/-- An element that no earlier non-array element of its name precedes is the first. -/
theorem firstNonArray_of_split {obj : BSONObj} {seen rest : List Located} {e : Located}
    (split : locateFrom 4 obj = seen ++ e :: rest) (notArray : e.value.type ≠ .array)
    (earlier : ∀ other ∈ seen, other.name = e.name → other.value.type = .array) :
    firstNonArray obj e.name = some e := by
  have skipped : seen.find? (fun other => other.name == e.name && other.value.type != .array) =
      none := by
    rw [List.find?_eq_none]
    intro other member
    by_cases named : other.name = e.name
    · simp [named, earlier other member named]
    · simp [named]
  simp [firstNonArray, split, List.find?_append, skipped, notArray]

theorem CacheSound.of_zero {obj : BSONObj} {cache : FieldOffsetCache}
    (zero : ∀ slot, cache.offsets slot = 0) : CacheSound obj cache :=
  fun slot set => absurd (zero slot) set

theorem CacheSound.fresh {obj : BSONObj} : CacheSound obj FieldOffsetCache.fresh :=
  CacheSound.of_zero fun _ => rfl

/-- Setting the slot of a name to the offset of its first non-array element keeps the cache
sound. -/
theorem CacheSound.write {obj : BSONObj} {cache : FieldOffsetCache} (sound : CacheSound obj cache)
    {e : Located} (first : firstNonArray obj e.name = some e) :
    CacheSound obj (cache.write (computeCacheSlot e.name) e.offset) := by
  intro slot set
  by_cases same : slot = computeCacheSlot e.name
  · subst same
    exact ⟨e, first, by simp [FieldOffsetCache.write], rfl⟩
  · simp only [FieldOffsetCache.write, same, if_false] at set ⊢
    exact sound slot set

section Canonical

variable {gen : BtreeKeyGeneratorV1} {obj : BSONObj}

/-- Two canonical fills of one field are the same fill: a field index names one undotted
field. -/
theorem CanonicalFill.unique (wellFormed : gen.WellFormed) {fill other : Nat × Value}
    (canonical : CanonicalFill gen obj fill) (canonical' : CanonicalFill gen obj other)
    (same : fill.1 = other.1) : fill = other := by
  obtain ⟨info, member, e, first, rfl⟩ := canonical
  obtain ⟨info', member', e', first', rfl⟩ := canonical'
  have sameInfo : info = info' := List.inj_on_of_nodup_map wellFormed.indices member member' same
  subst sameInfo
  rw [first] at first'
  cases first'
  rfl

theorem CanonicalPrefill.mem_iff (wellFormed : gen.WellFormed) {state : Prefill}
    {fills : List (Nat × Value)} (canonical : CanonicalPrefill gen obj state fills)
    (fill : Nat × Value) : fill ∈ fills ↔ CanonicalFill gen obj fill := by
  constructor
  · exact canonical.filledBy.admitted fill
  · intro admitted
    obtain ⟨info, member, e, first, rfl⟩ := admitted
    obtain ⟨other, inside, same⟩ := List.mem_map.mp (canonical.complete info member e first)
    have equal := CanonicalFill.unique wellFormed (canonical.filledBy.admitted other inside)
      ⟨info, member, e, first, rfl⟩ same
    exact equal ▸ inside

/-- The canonical prefill is one prefill: the fills differ only in their order. -/
theorem CanonicalPrefill.eq (wellFormed : gen.WellFormed) {state state' : Prefill}
    {fills fills' : List (Nat × Value)} (canonical : CanonicalPrefill gen obj state fills)
    (canonical' : CanonicalPrefill gen obj state' fills') : state = state' := by
  have perm : fills.Perm fills' :=
    (List.perm_ext_iff_of_nodup (canonical.filledBy.distinct.of_map _)
      (canonical'.filledBy.distinct.of_map _)).mpr fun fill =>
        (canonical.mem_iff wellFormed fill).trans (canonical'.mem_iff wellFormed fill).symm
  have same : ArrayScan.start state.fieldNames state.fixed =
      ArrayScan.start state'.fieldNames state'.fixed := by
    rw [canonical.filledBy.filled, canonical'.filledBy.filled,
      ArrayScan.applyFills_perm perm canonical.filledBy.distinct]
  cases state
  cases state'
  simp only [ArrayScan.start, ArrayScan.mk.injEq] at same
  rw [same.1, same.2.1]

/-- A field of the pattern is done exactly when it is an undotted field whose name has a
non-array element. -/
theorem CanonicalPrefill.isDone_iff (wellFormed : gen.WellFormed) {state : Prefill}
    {fills : List (Nat × Value)} (canonical : CanonicalPrefill gen obj state fills) {i : Nat}
    (bound : i < gen.fieldNames.length) :
    state.isDone i = true ↔
      ∃ info ∈ gen.simpleFields, info.fieldIndex = i ∧ (firstNonArray obj info.name).isSome := by
  constructor
  · intro done
    obtain ⟨fill, inside, rfl⟩ :=
      List.mem_map.mp (canonical.filledBy.mem_of_done wellFormed.nonempty bound done)
    obtain ⟨info, member, e, first, rfl⟩ := canonical.filledBy.admitted fill inside
    exact ⟨info, member, rfl, by simp [first]⟩
  · rintro ⟨info, member, rfl, found⟩
    obtain ⟨e, first⟩ := Option.isSome_iff_exists.mp found
    exact canonical.filledBy.done_of_mem (canonical.complete info member e first)

/-- An undotted field whose name has a non-array element holds the first one. -/
theorem CanonicalPrefill.fixed_eq (wellFormed : gen.WellFormed) {state : Prefill}
    {fills : List (Nat × Value)} (canonical : CanonicalPrefill gen obj state fills)
    {info : SimpleFieldInfo} (member : info ∈ gen.simpleFields) {e : Located}
    (first : firstNonArray obj info.name = some e) :
    state.fixed[info.fieldIndex]? = some (some e.value) :=
  canonical.filledBy.fixed_of_mem ((canonical.mem_iff wellFormed _).mpr ⟨info, member, e, first, rfl⟩)

/-- Once as many fields are filled as there are undotted fields, every undotted field is. -/
theorem FilledBy.simple_done_of_length {state : Prefill}
    {fills : List (Nat × Value)} (filledBy : FilledBy gen (CanonicalFill gen obj) state fills)
    (enough : gen.simpleFields.length ≤ fills.length) :
    ∀ info ∈ gen.simpleFields, info.fieldIndex ∈ fills.map Prod.fst := by
  have within : fills.map Prod.fst ⊆ gen.simpleFields.map SimpleFieldInfo.fieldIndex := by
    intro index member
    obtain ⟨fill, inside, rfl⟩ := List.mem_map.mp member
    obtain ⟨info, simple, e, _, rfl⟩ := filledBy.admitted fill inside
    exact List.mem_map.mpr ⟨info, simple, rfl⟩
  have perm := (List.subperm_of_subset filledBy.distinct within).perm_of_length_le
    (by simpa using enough)
  intro info member
  exact perm.mem_iff.mpr (List.mem_map.mpr ⟨info, member, rfl⟩)

theorem SimpleFieldOf.lt_length {info : SimpleFieldInfo} {names : List (List Char)}
    (simple : SimpleFieldOf names info) : info.fieldIndex < names.length :=
  (List.getElem?_eq_some_iff.mp simple.path).1

/-- A done undotted field has been filled. -/
theorem FilledBy.simple_mem_of_done (wellFormed : gen.WellFormed) {good : Nat × Value → Prop}
    {state : Prefill} {fills : List (Nat × Value)} (filledBy : FilledBy gen good state fills)
    {info : SimpleFieldInfo} (member : info ∈ gen.simpleFields)
    (done : state.isDone info.fieldIndex = true) : info.fieldIndex ∈ fills.map Prod.fst :=
  filledBy.mem_of_done wellFormed.nonempty (wellFormed.simple info member).lt_length done

end Canonical

section Phase1

variable {gen : BtreeKeyGeneratorV1} {obj : BSONObj}

/-- One element of the Phase 1 scan keeps the invariant, with the element now seen. -/
theorem Phase1Inv.step (wellFormed : gen.WellFormed)
    (distinctNames : gen.DistinctSimpleNames) {seen rest : List Located} {e : Located}
    (split : locateFrom 4 obj = seen ++ e :: rest) {state : Phase1State}
    {fills : List (Nat × Value)} (inv : Phase1Inv gen obj seen state fills) :
    ∃ fills', Phase1Inv gen obj (seen ++ [e])
      (matchSimpleField e (utf8 e.name).length gen.simpleFields state) fills' := by
  rw [matchSimpleField_eq]
  cases found : gen.simpleFields.find? (fun info => !state.prefill.isDone info.fieldIndex &&
      info.nameLen == (utf8 e.name).length && info.name == e.name) with
  | none =>
      -- every undotted field of the element's name is done already
      refine ⟨fills, inv.filledBy, inv.count, ?_, inv.cache⟩
      intro info member x seenX named notArray
      rcases List.mem_append.mp seenX with old | new
      · exact inv.seenDone info member x old named notArray
      · simp only [List.mem_singleton] at new
        subst new
        have skipped := List.find?_eq_none.mp found info member
        have done : state.prefill.isDone info.fieldIndex = true := by
          simpa [(wellFormed.simple info member).nameLen, named] using skipped
        exact inv.filledBy.simple_mem_of_done wellFormed member done
  | some info =>
      have member := List.mem_of_find?_eq_some found
      have simple := wellFormed.simple info member
      have holds := List.find?_some found
      simp only [Bool.and_eq_true, Bool.not_eq_true', beq_iff_eq] at holds
      obtain ⟨⟨pending, _⟩, named⟩ := holds
      dsimp only
      by_cases isArray : e.value.type = .array
      · -- an array element fills nothing
        rw [if_neg (by simp [isArray])]
        refine ⟨fills, inv.filledBy, inv.count, ?_, inv.cache⟩
        intro other otherMember x seenX otherNamed notArray
        rcases List.mem_append.mp seenX with old | new
        · exact inv.seenDone other otherMember x old otherNamed notArray
        · simp only [List.mem_singleton] at new
          subst new
          exact absurd isArray notArray
      · -- no non-array element of the name was seen, or the field would be done
        have first : firstNonArray obj e.name = some e := by
          apply firstNonArray_of_split split isArray
          intro other inside otherNamed
          by_contra notArray
          have done := inv.filledBy.done_of_mem
            (inv.seenDone info member other inside (otherNamed.trans named.symm) notArray)
          simp [done] at pending
        rw [if_pos (by simpa using isArray)]
        refine ⟨fills ++ [(info.fieldIndex, e.value)], ?_, ?_, ?_, ?_⟩
        · exact inv.filledBy.fill (by simp [pending]) simple.lt_length
            ⟨info, member, e, named ▸ first, rfl⟩
        · simp [inv.count]
        · intro other otherMember x seenX otherNamed notArray
          rw [List.map_append, List.mem_append]
          rcases List.mem_append.mp seenX with old | new
          · exact .inl (inv.seenDone other otherMember x old otherNamed notArray)
          · -- the element's name is the name of one undotted field
            simp only [List.mem_singleton] at new
            subst new
            have same : other = info := List.inj_on_of_nodup_map distinctNames otherMember member
              (otherNamed.symm.trans named.symm)
            subst same
            exact .inr (List.mem_singleton_self _)
        · show CacheSound obj (state.cache.write info.cacheSlot e.offset)
          rw [simple.cacheSlot, named]
          exact inv.cache.write first

/-- The whole Phase 1 scan from the elements after `seen` leaves the canonical prefill and a sound
cache, whether it reads every element or stops once every undotted field is found. -/
theorem Phase1Inv.phase1_canonical (wellFormed : gen.WellFormed) (distinctNames : gen.DistinctSimpleNames) :
    ∀ (rest seen : List Located) (state : Phase1State) (fills : List (Nat × Value)),
      locateFrom 4 obj = seen ++ rest → Phase1Inv gen obj seen state fills →
      (∃ fills', CanonicalPrefill gen obj (phase1 gen rest state).prefill fills') ∧
        CacheSound obj (phase1 gen rest state).cache
  | [], seen, state, fills, split, inv => by
      rw [List.append_nil] at split
      refine ⟨⟨fills, inv.filledBy, fun info member e first => ?_⟩, inv.cache⟩
      obtain ⟨inside, named, notArray⟩ := firstNonArray_spec first
      exact inv.seenDone info member e (split ▸ inside) named notArray
  | e :: rest, seen, state, fills, split, inv => by
      have split' : locateFrom 4 obj = (seen ++ [e]) ++ rest := by simp [split]
      simp only [phase1]
      split
      · split
        · obtain ⟨fills', inv'⟩ := inv.step wellFormed distinctNames split
          exact Phase1Inv.phase1_canonical wellFormed distinctNames rest _ _ fills' split' inv'
        · rename_i rejected
          -- the bitmap admits the length of every undotted field
          have seenDone : ∀ info ∈ gen.simpleFields, ∀ x ∈ seen ++ [e], x.name = info.name →
              x.value.type ≠ .array → info.fieldIndex ∈ fills.map Prod.fst := by
            intro info member x seenX named notArray
            rcases List.mem_append.mp seenX with old | new
            · exact inv.seenDone info member x old named notArray
            · simp only [List.mem_singleton] at new
              subst new
              have admitted := wellFormed.bitmap info member
              rw [(wellFormed.simple info member).nameLen, ← named] at admitted
              exact absurd admitted rejected
          exact Phase1Inv.phase1_canonical wellFormed distinctNames rest _ state fills split'
            ⟨inv.filledBy, inv.count, seenDone, inv.cache⟩
      · rename_i finished
        have count := inv.count
        have all := inv.filledBy.simple_done_of_length (by omega)
        exact ⟨⟨fills, inv.filledBy, fun info member _ _ => all info member⟩, inv.cache⟩

/-- A cache read fills an undotted field only with the first non-array element of its name: a
sound slot holds such an element, and the read checks its name. -/
theorem readCache_canonical (wellFormed : gen.WellFormed) {cache : FieldOffsetCache}
    (sound : CacheSound obj cache) :
    ∀ infos : List SimpleFieldInfo, (∀ info ∈ infos, info ∈ gen.simpleFields) →
      ∀ (state : Prefill) (cacheHits : Nat) (fills : List (Nat × Value)),
        FilledBy gen (CanonicalFill gen obj) state fills → cacheHits = fills.length →
        ∃ fills', FilledBy gen (CanonicalFill gen obj)
            (readCache obj cache infos (state, cacheHits)).1 fills' ∧
          (readCache obj cache infos (state, cacheHits)).2 = fills'.length
  | [], _, _, _, fills, filledBy, count => ⟨fills, filledBy, count⟩
  | info :: infos, within, state, cacheHits, fills, filledBy, count => by
      have rest := readCache_canonical wellFormed sound infos
        fun other member => within other (List.mem_cons_of_mem _ member)
      have member := within info List.mem_cons_self
      rcases readCache_cons obj cache info infos state cacheHits with
        same | ⟨cached, pending, set, found, named, _, same⟩
      · rw [same]
        exact rest _ _ _ filledBy count
      · rw [same]
        obtain ⟨e, first, offset, _⟩ := sound _ set
        -- the element at a sound slot's offset is the first non-array one of its name
        have atOffset : elementAt obj (cache.offsets info.cacheSlot) = some e := by
          rw [← offset]
          exact find_offset_locateFrom (firstNonArray_spec first).1
        rw [atOffset, Option.some.injEq] at found
        subst found
        have canonical : CanonicalFill gen obj (info.fieldIndex, e.value) :=
          ⟨info, member, e, named ▸ first, rfl⟩
        exact rest _ (cacheHits + 1) _ (filledBy.fill pending
          (wellFormed.simple info member).lt_length canonical) (by simp [count])

/-- The cache Phase 1 starts from: the caller's when it is valid for the document, else a new
one, which sets no slot. -/
theorem CacheSound.ite {cache : FieldOffsetCache} (sound : CacheSound obj cache) (valid : Bool)
    (ptr size : Nat) : CacheSound obj (if valid then cache else FieldOffsetCache.init ptr size) := by
  split
  · exact sound
  · exact CacheSound.of_zero fun _ => rfl

/-- Before Phase 1 nothing is seen, and the cache read, when it runs, has filled only canonical
fields, one per hit. -/
theorem Phase1Inv.initial (wellFormed : gen.WellFormed) {readFirst : Bool}
    {cache : FieldOffsetCache} (sound : CacheSound obj cache) :
    ∃ fills, Phase1Inv gen obj []
      ⟨(if readFirst then
          readCache obj cache gen.simpleFields (⟨gen.fieldNames, gen.fieldNames.map fun _ => none⟩, 0)
        else (⟨gen.fieldNames, gen.fieldNames.map fun _ => none⟩, 0)).1, cache,
       (if readFirst then
          readCache obj cache gen.simpleFields (⟨gen.fieldNames, gen.fieldNames.map fun _ => none⟩, 0)
        else (⟨gen.fieldNames, gen.fieldNames.map fun _ => none⟩, 0)).2⟩ fills := by
  have readSound : ∃ fills, FilledBy gen (CanonicalFill gen obj)
      (if readFirst then
        readCache obj cache gen.simpleFields (⟨gen.fieldNames, gen.fieldNames.map fun _ => none⟩, 0)
      else (⟨gen.fieldNames, gen.fieldNames.map fun _ => none⟩, 0)).1 fills ∧
      (if readFirst then
        readCache obj cache gen.simpleFields (⟨gen.fieldNames, gen.fieldNames.map fun _ => none⟩, 0)
      else (⟨gen.fieldNames, gen.fieldNames.map fun _ => none⟩, 0)).2 = fills.length := by
    cases readFirst with
    | true =>
        exact readCache_canonical wellFormed sound _ (fun _ member => member) _ 0 []
          (FilledBy.untouched gen _) rfl
    | false => exact ⟨[], FilledBy.untouched gen _, rfl⟩
  obtain ⟨fills, filledBy, count⟩ := readSound
  exact ⟨fills, filledBy, count, by simp, sound⟩

/-- Phase 1 runs unless the undotted fields are all found already; either way the prefill is the
canonical one. -/
theorem Phase1Inv.scanned (wellFormed : gen.WellFormed) (distinctNames : gen.DistinctSimpleNames)
    (state : Phase1State) (initial : ∃ fills, Phase1Inv gen obj [] state fills) :
    (∃ fills, CanonicalPrefill gen obj
      (if (!gen.simpleFields.isEmpty && decide (state.foundCount < gen.simpleFields.length)) = true
        then phase1 gen (locateFrom 4 obj) state else state).prefill fills) ∧
    CacheSound obj
      (if (!gen.simpleFields.isEmpty && decide (state.foundCount < gen.simpleFields.length)) = true
        then phase1 gen (locateFrom 4 obj) state else state).cache := by
  obtain ⟨fills, inv⟩ := initial
  split
  · exact Phase1Inv.phase1_canonical wellFormed distinctNames _ [] state fills rfl inv
  · rename_i skipped
    -- skipped: there are no undotted fields, or the cache read found them all
    have all : ∀ info ∈ gen.simpleFields, info.fieldIndex ∈ fills.map Prod.fst := by
      by_cases empty : gen.simpleFields = []
      · simp [empty]
      · have count := inv.count
        have found : gen.simpleFields.length ≤ state.foundCount := by
          simpa [empty] using skipped
        exact inv.filledBy.simple_done_of_length (by omega)
    exact ⟨⟨fills, inv.filledBy, fun info member _ _ => all info member⟩, inv.cache⟩

end Phase1

/-- With distinct undotted names and a sound cache, `getKeysImpl` of a generator other than the
`_id` one keys the prefix-group fill of the canonical prefill, and leaves a sound cache. -/
theorem getKeysImpl_canonical {gen : BtreeKeyGeneratorV1} (wellFormed : gen.WellFormed)
    (distinctNames : gen.DistinctSimpleNames) (notId : gen.isIdIndex = false) (ctx : KeyContext)
    (obj : BSONObj) (docPtr : Nat) (multikeyPaths : Option MultikeyPaths)
    {cache : FieldOffsetCache} (sound : CacheSound obj cache) :
    ∃ scanned : Phase1State,
      ((∃ fills, CanonicalPrefill gen obj scanned.prefill fills) ∧ CacheSound obj scanned.cache) ∧
      getKeysImpl gen ctx obj docPtr multikeyPaths cache =
        (getKeysImplWithArray gen ctx (keyFuel obj)
          (gen.prefixGroups.foldl (fillPrefixGroup ⟨obj, 0⟩) scanned.prefill).fieldNames
          (gen.prefixGroups.foldl (fillPrefixGroup ⟨obj, 0⟩) scanned.prefill).fixed ⟨obj, 0⟩ 0
          gen.emptyPositionalInfo ⟨[], gen.resizedPaths multikeyPaths⟩, scanned.cache) := by
  simp only [getKeysImpl, notId, Bool.false_eq_true, ↓reduceIte]
  refine ⟨_, ?_, rfl⟩
  apply Phase1Inv.scanned wellFormed distinctNames ⟨_, _, _⟩
  apply Phase1Inv.initial wellFormed
  exact CacheSound.ite sound _ _ _

/-- A fresh cache is valid for no document: it records size zero. -/
theorem FieldOffsetCache.fresh_isValidFor (obj : BSONObj) (docPtr : Nat) :
    FieldOffsetCache.fresh.isValidFor docPtr obj.objsize = false := by
  have positive : obj.objsize ≠ 0 := by
    rw [objsize_eq]
    omega
  simp [FieldOffsetCache.isValidFor, FieldOffsetCache.fresh, Ne.symm positive]

/-- With distinct undotted names, `getKeysImpl` computes from any sound cache what it computes
from a fresh one, and leaves the cache sound. -/
theorem getKeysImpl_sharedCache {gen : BtreeKeyGeneratorV1} (wellFormed : gen.WellFormed)
    (distinctNames : gen.DistinctSimpleNames) (ctx : KeyContext) (obj : BSONObj) (docPtr : Nat)
    (multikeyPaths : Option MultikeyPaths) {cache : FieldOffsetCache} (sound : CacheSound obj cache) :
    (getKeysImpl gen ctx obj docPtr multikeyPaths cache).1 =
        (getKeysImpl gen ctx obj docPtr multikeyPaths FieldOffsetCache.fresh).1 ∧
      CacheSound obj (getKeysImpl gen ctx obj docPtr multikeyPaths cache).2 := by
  cases notId : gen.isIdIndex with
  | true =>
      -- the `_id` index reads the document directly and leaves the cache alone
      have unchanged : ∀ cache, getKeysImpl gen ctx obj docPtr multikeyPaths cache =
          (idIndexKeys gen ctx obj multikeyPaths, cache) := by
        intro cache
        simp [getKeysImpl, notId]
      rw [unchanged, unchanged]
      exact ⟨rfl, sound⟩
  | false =>
      obtain ⟨scanned, ⟨⟨_, canonical⟩, scannedSound⟩, shared⟩ :=
        getKeysImpl_canonical wellFormed distinctNames notId ctx obj docPtr multikeyPaths sound
      obtain ⟨scanned', ⟨⟨_, canonical'⟩, _⟩, fresh⟩ :=
        getKeysImpl_canonical wellFormed distinctNames notId ctx obj docPtr multikeyPaths
          CacheSound.fresh
      have same : scanned.prefill = scanned'.prefill := canonical.eq wellFormed canonical'
      rw [shared, fresh, same]
      exact ⟨rfl, scannedSound⟩

/-- The undotted fields of the generator a pattern builds are the pattern's fields without a dot,
in order. -/
theorem scanPattern_simpleNames :
    ∀ (i : Nat) (rest : List (List Char)) (scan : PatternScan),
      (scanPattern i rest scan).simpleFields.map SimpleFieldInfo.name =
        scan.simpleFields.map SimpleFieldInfo.name ++
          (rest.filter fun path => (splitAtDot path).isNone).map String.ofList
  | _, [], scan => by simp [scanPattern]
  | i, fieldName :: rest, scan => by
      rw [scanPattern, scanPattern_simpleNames (i + 1) rest (scan.add i fieldName)]
      unfold PatternScan.add
      split
      · rename_i noDot
        simp [noDot]
      · rename_i prefixPath suffix split
        simp [split]

theorem make_distinctSimpleNames (pattern : KeyPattern) (isSparse : Bool)
    (distinct : (pattern.fieldNames.filter fun name => '.' ∉ name.toList).Nodup) :
    (BtreeKeyGeneratorV1.make pattern isSparse).DistinctSimpleNames := by
  have names : (BtreeKeyGeneratorV1.make pattern isSparse).simpleFields.map SimpleFieldInfo.name =
      pattern.fieldNames.filter fun name => '.' ∉ name.toList := by
    simp only [BtreeKeyGeneratorV1.make, scanPattern_simpleNames, List.map_nil, List.nil_append,
      List.filter_map, List.map_map]
    have keep : ((fun path => (splitAtDot path).isNone) ∘ String.toList) =
        fun name : String => decide ('.' ∉ name.toList) := by
      funext name
      by_cases dot : '.' ∈ name.toList
      · have split : splitAtDot name.toList ≠ none := fun none => splitAtDot_eq_none_iff.mp none dot
        simp [Option.isSome_iff_ne_none.mpr split, dot]
      · simp [splitAtDot_eq_none_iff.mpr dot, dot]
    rw [keep]
    simp
  rw [BtreeKeyGeneratorV1.DistinctSimpleNames, names]
  exact distinct

theorem phase1_fresh_marks_first_nonArray (pattern : KeyPattern) (isSparse : Bool)
    (distinct : (pattern.fieldNames.filter fun name => '.' ∉ name.toList).Nodup) (ctx : KeyContext)
    (obj : BSONObj) (docPtr : Nat) (multikeyPaths : Option MultikeyPaths) :
    let gen := BtreeKeyGeneratorV1.make pattern isSparse
    let scanned := phase1 gen (locateFrom 4 obj)
      ⟨⟨gen.fieldNames, gen.fieldNames.map fun _ => none⟩, FieldOffsetCache.init docPtr obj.objsize, 0⟩
    (∀ i < gen.fieldNames.length, scanned.prefill.isDone i = true ↔
        ∃ info ∈ gen.simpleFields, info.fieldIndex = i ∧ (firstNonArray obj info.name).isSome) ∧
      (∀ info ∈ gen.simpleFields, ∀ e, firstNonArray obj info.name = some e →
        scanned.prefill.fixed[info.fieldIndex]? = some (some e.value)) ∧
      (gen.isIdIndex = false → gen.simpleFields ≠ [] →
        getKeysImpl gen ctx obj docPtr multikeyPaths FieldOffsetCache.fresh =
          (getKeysImplWithArray gen ctx (keyFuel obj)
            (gen.prefixGroups.foldl (fillPrefixGroup ⟨obj, 0⟩) scanned.prefill).fieldNames
            (gen.prefixGroups.foldl (fillPrefixGroup ⟨obj, 0⟩) scanned.prefill).fixed ⟨obj, 0⟩ 0
            gen.emptyPositionalInfo ⟨[], gen.resizedPaths multikeyPaths⟩, scanned.cache)) := by
  intro gen scanned
  have wellFormed := make_wellFormed pattern isSparse
  have distinctNames := make_distinctSimpleNames pattern isSparse distinct
  -- no cache hits: the scan starts from the untouched fields with nothing found
  obtain ⟨fills, inv⟩ := @Phase1Inv.initial gen obj wellFormed false
    (FieldOffsetCache.init docPtr obj.objsize) (CacheSound.of_zero fun _ => rfl)
  have result : (∃ fills', CanonicalPrefill gen obj scanned.prefill fills') ∧ CacheSound obj scanned.cache :=
    Phase1Inv.phase1_canonical wellFormed distinctNames (locateFrom 4 obj) [] _ fills rfl inv
  obtain ⟨⟨fills', canonical⟩, _⟩ := result
  refine ⟨fun i bound => canonical.isDone_iff wellFormed bound,
    fun info member e first => canonical.fixed_eq wellFormed member first, ?_⟩
  intro notId nonempty
  have runs : (!gen.simpleFields.isEmpty && decide (0 < gen.simpleFields.length)) = true := by
    simp [nonempty, List.length_pos_iff]
  simp only [getKeysImpl, notId, Bool.false_eq_true, ↓reduceIte, FieldOffsetCache.fresh_isValidFor,
    Bool.false_and, runs]
  rfl

/-- A name of 65 bytes, whose length shares the bitmap bit of length 1. -/
def longName : String := "xxxxxxxxxxxxxxxxxxxxxxxxxxxxxxxxxxxxxxxxxxxxxxxxxxxxxxxxxxxxxxxxx"

/-- The key pattern {a: 1, b.c: 1, <longName>: 1}. -/
def aAndLongName : KeyPattern := ⟨["a", "b.c", longName], by decide⟩

/-- {a: [1], <longName>: 2, a: 3}: the first `a` is an array. -/
def aliasedDocument : BSONObj :=
  [("a", .array [("0", .scalar (.numberInt 1))]), (longName, .scalar (.numberInt 2)),
   ("a", .scalar (.numberInt 3))]

theorem phase1_fresh_marks_first_nonArray_aliasedDocument :
    let gen := BtreeKeyGeneratorV1.make aAndLongName false
    let scanned := phase1 gen (locateFrom 4 aliasedDocument)
      ⟨⟨gen.fieldNames, gen.fieldNames.map fun _ => none⟩, FieldOffsetCache.init 0 aliasedDocument.objsize, 0⟩
    (aAndLongName.fieldNames.filter fun name => '.' ∉ name.toList).Nodup ∧
      scanned.prefill.fixed[0]? = some (some (.scalar (.numberInt 3))) ∧
      scanned.prefill.fixed[2]? = some (some (.scalar (.numberInt 2))) ∧
      scanned.prefill.isDone 1 = false ∧
      getKeysImpl gen plainKeys aliasedDocument 0 none FieldOffsetCache.fresh =
        (getKeysImplWithArray gen plainKeys (keyFuel aliasedDocument)
          (gen.prefixGroups.foldl (fillPrefixGroup ⟨aliasedDocument, 0⟩) scanned.prefill).fieldNames
          (gen.prefixGroups.foldl (fillPrefixGroup ⟨aliasedDocument, 0⟩) scanned.prefill).fixed
          ⟨aliasedDocument, 0⟩ 0 gen.emptyPositionalInfo ⟨[], gen.resizedPaths none⟩, scanned.cache) := by
  have distinct : (aAndLongName.fieldNames.filter fun name => '.' ∉ name.toList).Nodup := by decide +kernel
  obtain ⟨doneIff, fixedEq, keys⟩ :=
    phase1_fresh_marks_first_nonArray aAndLongName false distinct plainKeys aliasedDocument 0 none
  have shortInfo : (⟨0, 1, "a", computeCacheSlot "a"⟩ : SimpleFieldInfo) ∈
      (BtreeKeyGeneratorV1.make aAndLongName false).simpleFields := by decide +kernel
  have shortFirst : firstNonArray aliasedDocument "a" = some ⟨"a", .scalar (.numberInt 3), 90⟩ := by
    decide +kernel
  have longInfo : (⟨2, 65, longName, computeCacheSlot longName⟩ : SimpleFieldInfo) ∈
      (BtreeKeyGeneratorV1.make aAndLongName false).simpleFields := by decide +kernel
  have longFirst : firstNonArray aliasedDocument longName = some ⟨longName, .scalar (.numberInt 2), 19⟩ := by
    decide +kernel
  have notDone : ¬∃ info ∈ (BtreeKeyGeneratorV1.make aAndLongName false).simpleFields, info.fieldIndex = 1 ∧
      (firstNonArray aliasedDocument info.name).isSome = true := by decide +kernel
  exact ⟨distinct, fixedEq _ shortInfo _ shortFirst, fixedEq _ longInfo _ longFirst,
    Bool.eq_false_iff.mpr fun done => notDone ((doneIff 1 (by decide +kernel)).mp done),
    keys (by decide +kernel) (by decide +kernel)⟩

/-- An index's undotted key fields have distinct names; only btree indexes of versions 1 and 2
use the cache. -/
def IndexKeyGenerator.DistinctSimpleNames : IndexKeyGenerator → Prop
  | .btreeV1 pattern _ _ => (pattern.fieldNames.filter fun name => '.' ∉ name.toList).Nodup
  | .other _ => True

instance (generator : IndexKeyGenerator) : Decidable generator.DistinctSimpleNames := by
  cases generator <;> unfold IndexKeyGenerator.DistinctSimpleNames <;> infer_instance

/-- One index's keys with a sound shared cache are its keys with no cache, and the cache stays
sound. -/
theorem IndexKeyGenerator.getKeys_sharedCache (doc : BSONObj) (docPtr : Nat)
    {cache : FieldOffsetCache} (sound : CacheSound doc cache) (generator : IndexKeyGenerator)
    (distinct : generator.DistinctSimpleNames) :
    ∃ cache', generator.getKeys doc docPtr (some cache) =
        ((generator.getKeys doc docPtr none).1, some cache') ∧ CacheSound doc cache' := by
  cases generator with
  | btreeV1 pattern isSparse ctx =>
      obtain ⟨same, after⟩ := getKeysImpl_sharedCache (make_wellFormed pattern isSparse)
        (make_distinctSimpleNames pattern isSparse distinct) ctx doc docPtr (some []) sound
      refine ⟨_, ?_, after⟩
      simp only [IndexKeyGenerator.getKeys, Index.getKeys, Option.getD_some, Option.getD_none,
        Option.map_some, Option.map_none, same]
  | other keys => exact ⟨cache, rfl, sound⟩

theorem IndexKeyGenerator.getKeys_none (doc : BSONObj) (docPtr : Nat)
    (generator : IndexKeyGenerator) : (generator.getKeys doc docPtr none).2 = none := by
  cases generator <;> rfl

/-- The loop of `MultiIndexBlock::insert` from a sound cache produces what it produces with no
shared cache. The induction is on the indexes, carrying the cache's soundness. -/
theorem insertIndexes_sharedCache (doc : BSONObj) (docPtr : Nat) :
    ∀ (indexes : List IndexToInsert) (cache : FieldOffsetCache),
      (∀ index ∈ indexes, index.generator.DistinctSimpleNames) → CacheSound doc cache →
      insertIndexes doc docPtr indexes (some cache) = insertIndexes doc docPtr indexes none
  | [], _, _, _ => rfl
  | index :: rest, cache, distinct, sound => by
      have restDistinct : ∀ other ∈ rest, other.generator.DistinctSimpleNames :=
        fun other member => distinct other (List.mem_cons_of_mem _ member)
      obtain ⟨cache', shared, sound'⟩ := index.generator.getKeys_sharedCache doc docPtr sound
        (distinct index List.mem_cons_self)
      have fresh : index.generator.getKeys doc docPtr none =
          ((index.generator.getKeys doc docPtr none).1, none) :=
        Prod.ext rfl (index.generator.getKeys_none doc docPtr)
      simp only [insertIndexes]
      split
      · exact insertIndexes_sharedCache doc docPtr rest cache restDistinct sound
      · rw [shared, fresh, insertIndexes_sharedCache doc docPtr rest cache' restDistinct sound']

/-- `MultiIndexBlock::insert` with its shared cache produces, index by index, the keys and the
status that each index's key generation with no cache produces, when no btree index of version 1
or 2 has two undotted key fields of one name. -/
theorem insert_sharedCache_eq_fresh (doc : BSONObj) (docPtr : Nat) (indexes : List IndexToInsert)
    (distinctNames : ∀ index ∈ indexes, index.generator.DistinctSimpleNames) :
    MultiIndexBlock.insert doc docPtr indexes = insertIndexes doc docPtr indexes none := by
  unfold MultiIndexBlock.insert
  split
  · exact insertIndexes_sharedCache doc docPtr indexes _ distinctNames CacheSound.fresh
  · rfl

/-- An insertion that accepts every key. -/
def acceptKeys : Except Status KeyOutput → Except Status Unit := fun _ => .ok ()

/-- The key pattern {a: 1, b.c: 1}. -/
def aAndNested : KeyPattern := ⟨["a", "b.c"], by decide⟩

/-- {a: [1, 2], b: {c: 3}, a: 4}. -/
def arrayThenA : BSONObj :=
  [("a", .array [("0", .scalar (.numberInt 1)), ("1", .scalar (.numberInt 2))]),
   ("b", .object [("c", .scalar (.numberInt 3))]),
   ("a", .scalar (.numberInt 4))]

/-- Three indexes built together: two btree indexes of version 1 or 2 and one of another kind. -/
def threeIndexes : List IndexToInsert :=
  [⟨.btreeV1 aAndNested false plainKeys, none, acceptKeys⟩,
   ⟨.btreeV1 onlyA true plainKeys, none, acceptKeys⟩,
   ⟨.other fun _ => .ok ⟨[], none⟩, none, acceptKeys⟩]

example :
    MultiIndexBlock.insert arrayThenA 0 threeIndexes = insertIndexes arrayThenA 0 threeIndexes none :=
  insert_sharedCache_eq_fresh arrayThenA 0 threeIndexes (by decide)

/-- The key pattern {a: 1, a: 1}. -/
def aTwice : KeyPattern := ⟨["a", "a"], by decide⟩

/-- {a: 1, a: 2}. -/
def twoAs : BSONObj := [("a", .scalar (.numberInt 1)), ("a", .scalar (.numberInt 2))]

/-- The index on {a: 1, a: 1} fills its second field from the second `a` and moves the slot of
`a` to it, so the index on {a: 1} built with it reads 2 where on its own it reads 1. -/
theorem sharedCache_repeatedName :
    MultiIndexBlock.insert twoAs 0
        [⟨.btreeV1 aTwice false plainKeys, none, acceptKeys⟩,
         ⟨.btreeV1 onlyA false plainKeys, none, acceptKeys⟩] =
      ([.ok ⟨[[.scalar (.numberInt 1), .scalar (.numberInt 2)]], some [[], []]⟩,
        .ok ⟨[[.scalar (.numberInt 2)]], some [[]]⟩], .ok ()) ∧
    insertIndexes twoAs 0
        [⟨.btreeV1 aTwice false plainKeys, none, acceptKeys⟩,
         ⟨.btreeV1 onlyA false plainKeys, none, acceptKeys⟩] none =
      ([.ok ⟨[[.scalar (.numberInt 1), .scalar (.numberInt 2)]], some [[], []]⟩,
        .ok ⟨[[.scalar (.numberInt 1)]], some [[]]⟩], .ok ()) :=
  ⟨by decide, by decide⟩

end FastMongo.Index

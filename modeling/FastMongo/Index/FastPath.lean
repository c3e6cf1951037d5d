import FastMongo.Index.KeyGenerator

/-!
The fast path of `BtreeKeyGeneratorV1::getKeysImpl`: the field offset cache that generators
running on one document share (Phase 4v3), the length-bitmap scan that fills the undotted
fields from the top-level elements (Phase 1), and the prefix groups that fill dotted fields
through one lookup of their shared first piece (Phase 2). A field they fill is handed to
`getKeysImplWithArray` as done.
-/

namespace FastMongo.Index

open FastMongo.Bson

/-- `FieldOffsetCache`: the document it was filled for, by address and size, and for each slot
the offset of a top-level element, zero for none. -/
structure FieldOffsetCache where
  docPtr : Nat
  docSize : Nat
  offsets : UInt8 → Nat

/-- A default-constructed `FieldOffsetCache`: no document. -/
def FieldOffsetCache.fresh : FieldOffsetCache := ⟨0, 0, fun _ => 0⟩

/-- `FieldOffsetCache::init`. -/
def FieldOffsetCache.init (ptr size : Nat) : FieldOffsetCache := ⟨ptr, size, fun _ => 0⟩

/-- `FieldOffsetCache::isValidFor`. -/
def FieldOffsetCache.isValidFor (cache : FieldOffsetCache) (ptr size : Nat) : Bool :=
  cache.docPtr == ptr && cache.docSize == size

/-- `cache->offsets[slot] = offset`. -/
def FieldOffsetCache.write (cache : FieldOffsetCache) (slot : UInt8) (offset : Nat) :
    FieldOffsetCache :=
  { cache with offsets := fun other => if other = slot then offset else cache.offsets other }

/-- The field names and fixed elements that the fast path fills before `getKeysImplWithArray`. -/
structure Prefill where
  fieldNames : List (List Char)
  fixed : List (Option Value)
  deriving DecidableEq, Repr

/-- Fill field `i` with `value` and mark it done. -/
def Prefill.fill (state : Prefill) (i : Nat) (value : Value) : Prefill :=
  ⟨state.fieldNames.set i [], state.fixed.set i (some value)⟩

/-- Whether field `i` is done: its remaining name is empty. -/
def Prefill.isDone (state : Prefill) (i : Nat) : Bool :=
  (state.fieldNames.getD i []).isEmpty

/-- `BSONElement(objData + offset)` for an offset the cache holds: the top-level element that
starts there. -/
def elementAt (obj : BSONObj) (offset : Nat) : Option Located :=
  (locateFrom 4 obj).find? fun e => e.offset == offset

/-- The Phase 4v3 cache read: each undotted field not yet done whose slot holds an element of
its own name that is not an array is filled with it. Returns the hits. -/
def readCache (obj : BSONObj) (cache : FieldOffsetCache) :
    List SimpleFieldInfo → Prefill × Nat → Prefill × Nat
  | [], state => state
  | info :: infos, (state, cacheHits) =>
      if state.isDone info.fieldIndex then readCache obj cache infos (state, cacheHits)
      else
        let offset := cache.offsets info.cacheSlot
        if offset ≠ 0 then
          match elementAt obj offset with
          | some cached =>
              -- the name check guards against two names in one slot
              if (utf8 cached.name).length == info.nameLen && cached.name == info.name &&
                  cached.value.type != .array then
                readCache obj cache infos (state.fill info.fieldIndex cached.value, cacheHits + 1)
              else readCache obj cache infos (state, cacheHits)
          | none => readCache obj cache infos (state, cacheHits)
        else readCache obj cache infos (state, cacheHits)

/-- What Phase 1 carries along the document: the fields, the cache and how many fields it
found. -/
structure Phase1State where
  prefill : Prefill
  cache : FieldOffsetCache
  foundCount : Nat

/-- The inner loop of Phase 1 for one document element: the first undotted field of its name
not yet done takes it unless it is an array, and a document element matches one field at most. -/
def matchSimpleField (e : Located) (docFieldLen : Nat) :
    List SimpleFieldInfo → Phase1State → Phase1State
  | [], state => state
  | info :: infos, state =>
      if state.prefill.isDone info.fieldIndex then matchSimpleField e docFieldLen infos state
      else if info.nameLen ≠ docFieldLen then matchSimpleField e docFieldLen infos state
      else if info.name = e.name then
        if e.value.type != .array then
          { prefill := state.prefill.fill info.fieldIndex e.value
            cache := state.cache.write info.cacheSlot e.offset
            foundCount := state.foundCount + 1 }
        else state
      else matchSimpleField e docFieldLen infos state

/-- The length bitmap test: whether some undotted field has this length modulo 64. -/
def bitmapAdmits (bitmap : UInt64) (docFieldLen : Nat) : Bool :=
  bitmap &&& ((1 : UInt64) <<< (docFieldLen % 64).toUInt64) != 0

/-- The outer loop of Phase 1 over the top-level elements, until every undotted field is found. -/
def phase1 (gen : BtreeKeyGeneratorV1) : List Located → Phase1State → Phase1State
  | [], state => state
  | e :: rest, state =>
      if state.foundCount < gen.simpleFields.length then
        let docFieldLen := (utf8 e.name).length
        if bitmapAdmits gen.simpleLengthBitmap docFieldLen then
          phase1 gen rest (matchSimpleField e docFieldLen gen.simpleFields state)
        else phase1 gen rest state
      else state

/-- Phase 2 for one prefix group: when the shared first piece names a document, each dotted
field of the group not yet done whose rest reaches a non-array element is filled with it. -/
def fillPrefixGroup (obj : Embedded) (state : Prefill) (group : PrefixGroup) : Prefill :=
  match obj.getField (String.ofList group.prefixPath) with
  | none => state
  | some prefixElt =>
      match prefixElt.value with
      | .object fields =>
          let intermediateObj := prefixElt.embedded fields
          group.fields.foldl (fun state field =>
            if state.isDone field.fieldIndex then state
            else
              match extractElementAtPathOrArrayAlongPath intermediateObj field.suffix with
              | (some suffixElt, suffixPath) =>
                  if suffixElt.value.type != .array && suffixPath.isEmpty then
                    state.fill field.fieldIndex suffixElt.value
                  else state
              | (none, _) => state) state
      | _ => state

/-- `BtreeKeyGeneratorV1::getKeysImpl` for a document at address `docPtr`: the keys, and the
cache it leaves, which is written before any error of the key generation proper. -/
def getKeysImpl (gen : BtreeKeyGeneratorV1) (ctx : KeyContext) (obj : BSONObj) (docPtr : Nat)
    (multikeyPaths : Option MultikeyPaths) (cache : FieldOffsetCache) :
    Except Status KeyOutput × FieldOffsetCache :=
  if gen.isIdIndex then (idIndexKeys gen ctx obj multikeyPaths, cache)
  else
    let objSize := obj.objsize
    let cacheValid := cache.isValidFor docPtr objSize
    let cache := if cacheValid then cache else FieldOffsetCache.init docPtr objSize
    let untouched : Prefill := ⟨gen.fieldNames, gen.fieldNames.map fun _ => none⟩
    let (read, cacheHits) :=
      if cacheValid && !gen.simpleFields.isEmpty then
        readCache obj cache gen.simpleFields (untouched, 0)
      else (untouched, 0)
    let scanned :=
      if !gen.simpleFields.isEmpty && cacheHits < gen.simpleFields.length then
        phase1 gen (locateFrom 4 obj) ⟨read, cache, cacheHits⟩
      else ⟨read, cache, cacheHits⟩
    let prefilled := gen.prefixGroups.foldl (fillPrefixGroup ⟨obj, 0⟩) scanned.prefill
    (getKeysImplWithArray gen ctx (keyFuel obj) prefilled.fieldNames prefilled.fixed ⟨obj, 0⟩ 0
      gen.emptyPositionalInfo ⟨[], gen.resizedPaths multikeyPaths⟩, scanned.cache)

/-- `BtreeKeyGenerator::getKeys` with the caller's cache, or with a local one. -/
def getKeys (gen : BtreeKeyGeneratorV1) (ctx : KeyContext) (obj : BSONObj) (docPtr : Nat)
    (multikeyPaths : Option MultikeyPaths) (cache : Option FieldOffsetCache) :
    Except Status KeyOutput × Option FieldOffsetCache :=
  let (result, cacheAfter) := getKeysImpl gen ctx obj docPtr multikeyPaths
    (cache.getD FieldOffsetCache.fresh)
  (withNullKey gen result, cache.map fun _ => cacheAfter)

/-- One field of the cache read: it is skipped, or it takes the element that starts at its
slot's offset, which has the field's name and is not an array. -/
theorem readCache_cons (obj : BSONObj) (cache : FieldOffsetCache) (info : SimpleFieldInfo)
    (infos : List SimpleFieldInfo) (state : Prefill) (cacheHits : Nat) :
    readCache obj cache (info :: infos) (state, cacheHits) =
        readCache obj cache infos (state, cacheHits) ∨
      ∃ cached, ¬state.isDone info.fieldIndex = true ∧ cache.offsets info.cacheSlot ≠ 0 ∧
        elementAt obj (cache.offsets info.cacheSlot) = some cached ∧ cached.name = info.name ∧
        cached.value.type ≠ .array ∧
        readCache obj cache (info :: infos) (state, cacheHits) =
          readCache obj cache infos (state.fill info.fieldIndex cached.value, cacheHits + 1) := by
  simp only [readCache]
  split
  · exact .inl rfl
  · rename_i pending
    split
    · rename_i set
      split
      · rename_i cached found
        split
        · rename_i check
          simp only [Bool.and_eq_true, beq_iff_eq, bne_iff_ne, ne_eq] at check
          exact .inr ⟨cached, pending, set, found, check.1.2, check.2, rfl⟩
        · exact .inl rfl
      · exact .inl rfl
    · exact .inl rfl

/-- The inner loop of Phase 1 stops at the first pending undotted field of the element's length
and name. -/
theorem matchSimpleField_eq (e : Located) (docFieldLen : Nat) (state : Phase1State) :
    ∀ infos : List SimpleFieldInfo, matchSimpleField e docFieldLen infos state =
      match infos.find? (fun info => !state.prefill.isDone info.fieldIndex &&
          info.nameLen == docFieldLen && info.name == e.name) with
      | some info =>
          if e.value.type != .array then
            ⟨state.prefill.fill info.fieldIndex e.value, state.cache.write info.cacheSlot e.offset,
              state.foundCount + 1⟩
          else state
      | none => state
  | [] => rfl
  | info :: infos => by
      rw [matchSimpleField, List.find?_cons, matchSimpleField_eq e docFieldLen state infos]
      by_cases done : state.prefill.isDone info.fieldIndex = true
      · simp [done]
      · by_cases len : info.nameLen = docFieldLen
        · by_cases named : info.name = e.name
          · simp [done, len, named]
          · have differ : (info.name == e.name) = false := beq_eq_false_iff_ne.mpr named
            simp [done, len, named, differ]
        · have differ : (info.nameLen == docFieldLen) = false := beq_eq_false_iff_ne.mpr len
          simp [done, len, differ]

/-- An element that no undotted field can take, having another name or being an array, leaves
the inner loop of Phase 1 where it was. -/
theorem matchSimpleField_of_unmatched {e : Located} (docFieldLen : Nat) (state : Phase1State) :
    ∀ infos : List SimpleFieldInfo, (∀ info ∈ infos, info.name = e.name → e.value.type = .array) →
      matchSimpleField e docFieldLen infos state = state
  | [], _ => rfl
  | info :: infos, unmatched => by
      have rest := matchSimpleField_of_unmatched docFieldLen state infos
        fun other member => unmatched other (List.mem_cons_of_mem _ member)
      simp only [matchSimpleField]
      split
      · exact rest
      · split
        · exact rest
        · split
          · rename_i named
            simp [unmatched info List.mem_cons_self named]
          · exact rest

/-- Once every undotted field is found, Phase 1 stops. -/
theorem phase1_of_found (gen : BtreeKeyGeneratorV1) (state : Phase1State)
    (found : ¬state.foundCount < gen.simpleFields.length) :
    ∀ elements : List Located, phase1 gen elements state = state
  | [] => rfl
  | _ :: _ => by simp [phase1, found]

/-- Phase 1 passes over elements that no undotted field can take. -/
theorem phase1_append_of_unmatched (gen : BtreeKeyGeneratorV1) (rest : List Located)
    (state : Phase1State) :
    ∀ passed : List Located, (∀ e ∈ passed, ∀ info ∈ gen.simpleFields,
        info.name = e.name → e.value.type = .array) →
      phase1 gen (passed ++ rest) state = phase1 gen rest state
  | [], _ => rfl
  | e :: passed, unmatched => by
      have later := phase1_append_of_unmatched gen rest state passed
        fun other member => unmatched other (List.mem_cons_of_mem _ member)
      rw [List.cons_append, phase1]
      split
      · dsimp only
        split
        · rw [matchSimpleField_of_unmatched _ _ _ (unmatched e List.mem_cons_self), later]
        · exact later
      · rename_i found
        rw [phase1_of_found gen state found]

end FastMongo.Index

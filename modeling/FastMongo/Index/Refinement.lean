import FastMongo.Index.Prefill
import FastMongo.Lib.Reachability

/-!
`BtreeKeyGeneratorV1::getKeys` against the reference `getKeysImplWithArray` started on the
untouched field names. Every field that the cache read, Phase 1 or Phase 2 fills is one the
reference's first loop fixes to the same element, as long as the element the fast path picks is
the one the reference reads. Two shapes break that: a simple field whose name is repeated at the
top of the document, where Phase 1 skips an array that the reference expands and takes a later
element of the name, and a dotted field that ends in an empty piece ("a."), which the reference
reads as the element "a" itself and Phase 2 as a field "" inside it.
-/

namespace FastMongo.Index

open FastMongo.Bson

/-- The prefill is the untouched state with `fills` applied, each to its own field of the
pattern and each one that `good` admits. -/
structure FilledBy (gen : BtreeKeyGeneratorV1) (good : Nat × Value → Prop) (state : Prefill)
    (fills : List (Nat × Value)) : Prop where
  filled : ArrayScan.start state.fieldNames state.fixed =
    (ArrayScan.start gen.fieldNames (gen.fieldNames.map fun _ => none)).applyFills fills
  distinct : (fills.map Prod.fst).Nodup
  within : ∀ fill ∈ fills, fill.1 < gen.fieldNames.length
  admitted : ∀ fill ∈ fills, good fill

/-- A prefill that the reference would reach by filling some of its fields itself. -/
def PrefillSound (gen : BtreeKeyGeneratorV1) (obj : BSONObj) (state : Prefill) : Prop :=
  ∃ fills, FilledBy gen (fun fill => Fillable ⟨obj, 0⟩ gen.fieldNames fill.1 fill.2) state fills

theorem Fillable.lt_length {obj : Embedded} {names : List (List Char)} {j : Nat} {value : Value}
    (fillable : Fillable obj names j value) : j < names.length := by
  obtain ⟨name, _, named, _⟩ := fillable
  exact (List.getElem?_eq_some_iff.mp named).1

/-- A filled field is done. -/
theorem ArrayScan.getElem?_applyFills_of_mem (scan : ArrayScan) {fills : List (Nat × Value)}
    {i : Nat} {value : Value} (distinct : (fills.map Prod.fst).Nodup) (member : (i, value) ∈ fills)
    (bound : i < scan.fieldNames.length) : (scan.applyFills fills).fieldNames[i]? = some [] := by
  rw [ArrayScan.applyFills_extract scan fills distinct member,
    ArrayScan.fieldNames_applyFills_ne _ _ fst_ne_of_mem_filter]
  exact List.getElem?_set_self bound

/-- A filled field holds its value. -/
theorem ArrayScan.fixed_applyFills_of_mem (scan : ArrayScan) {fills : List (Nat × Value)}
    {i : Nat} {value : Value} (distinct : (fills.map Prod.fst).Nodup) (member : (i, value) ∈ fills)
    (bound : i < scan.fixed.length) : (scan.applyFills fills).fixed[i]? = some (some value) := by
  rw [ArrayScan.applyFills_extract scan fills distinct member,
    ArrayScan.fixed_applyFills_ne _ _ fst_ne_of_mem_filter]
  exact List.getElem?_set_self bound

section FilledBy

variable {gen : BtreeKeyGeneratorV1} {good : Nat × Value → Prop} {state : Prefill}
  {fills : List (Nat × Value)}

theorem FilledBy.untouched (gen : BtreeKeyGeneratorV1) (good : Nat × Value → Prop) :
    FilledBy gen good ⟨gen.fieldNames, gen.fieldNames.map fun _ => none⟩ [] :=
  ⟨rfl, List.nodup_nil, by simp, by simp⟩

theorem FilledBy.fieldNames_eq (filledBy : FilledBy gen good state fills) :
    state.fieldNames = ((ArrayScan.start gen.fieldNames
      (gen.fieldNames.map fun _ => none)).applyFills fills).fieldNames :=
  congrArg ArrayScan.fieldNames filledBy.filled

/-- The fields a prefill has filled are done. -/
theorem FilledBy.done_of_mem (filledBy : FilledBy gen good state fills) {j : Nat}
    (member : j ∈ fills.map Prod.fst) : state.isDone j = true := by
  obtain ⟨⟨i, w⟩, inside, rfl⟩ := List.mem_map.mp member
  have done : state.fieldNames[i]? = some [] := by
    rw [filledBy.fieldNames_eq]
    exact ArrayScan.getElem?_applyFills_of_mem _ filledBy.distinct inside
      (filledBy.within _ inside)
  simp [Prefill.isDone, List.getD_eq_getElem?_getD, done]

/-- A field of the pattern that is done has been filled: no field name of the pattern is
empty. -/
theorem FilledBy.mem_of_done (filledBy : FilledBy gen good state fills)
    (nonempty : ∀ name ∈ gen.fieldNames, name ≠ []) {j : Nat} (bound : j < gen.fieldNames.length)
    (done : state.isDone j = true) : j ∈ fills.map Prod.fst := by
  by_contra missing
  have away : ∀ fill ∈ fills, fill.1 ≠ j := fun fill member same =>
    missing (List.mem_map.mpr ⟨fill, member, same⟩)
  have untouched : state.fieldNames[j]? = gen.fieldNames[j]? := by
    rw [filledBy.fieldNames_eq, ArrayScan.fieldNames_applyFills_ne _ _ away]
    rfl
  have named : gen.fieldNames[j]? = some gen.fieldNames[j] := List.getElem?_eq_getElem bound
  have notEmpty := nonempty _ (List.getElem_mem bound)
  simp [Prefill.isDone, List.getD_eq_getElem?_getD, untouched, named, notEmpty] at done

/-- A field the prefill has filled holds the value it was filled with. -/
theorem FilledBy.fixed_of_mem (filledBy : FilledBy gen good state fills) {j : Nat} {value : Value}
    (member : (j, value) ∈ fills) : state.fixed[j]? = some (some value) := by
  have fixedEq : state.fixed = ((ArrayScan.start gen.fieldNames
      (gen.fieldNames.map fun _ => none)).applyFills fills).fixed :=
    congrArg ArrayScan.fixed filledBy.filled
  rw [fixedEq]
  exact ArrayScan.fixed_applyFills_of_mem _ filledBy.distinct member
    (by simpa [ArrayScan.start] using filledBy.within _ member)

/-- Filling a field that is not done yet keeps the prefill the untouched state with distinct
fills applied. -/
theorem FilledBy.fill (filledBy : FilledBy gen good state fills) {j : Nat} {value : Value}
    (pending : ¬state.isDone j = true) (bound : j < gen.fieldNames.length)
    (admitted : good (j, value)) : FilledBy gen good (state.fill j value) (fills ++ [(j, value)]) := by
  have fresh : j ∉ fills.map Prod.fst := fun member => pending (filledBy.done_of_mem member)
  refine ⟨?_, ?_, ?_, ?_⟩
  · show (ArrayScan.start state.fieldNames state.fixed).fillAt j value = _
    rw [filledBy.filled, ArrayScan.applyFills_append]
    rfl
  · rw [List.map_append, List.nodup_append]
    refine ⟨filledBy.distinct, by simp, ?_⟩
    intro index old other new
    simp only [List.map_cons, List.map_nil, List.mem_singleton] at new
    rw [new]
    intro same
    exact fresh (same ▸ old)
  · intro fill member
    rcases List.mem_append.mp member with old | new
    · exact filledBy.within fill old
    · simp only [List.mem_singleton] at new
      rw [new]
      exact bound
  · intro fill member
    rcases List.mem_append.mp member with old | new
    · exact filledBy.admitted fill old
    · simp only [List.mem_singleton] at new
      rw [new]
      exact admitted

end FilledBy

theorem PrefillSound.untouched (gen : BtreeKeyGeneratorV1) (obj : BSONObj) :
    PrefillSound gen obj ⟨gen.fieldNames, gen.fieldNames.map fun _ => none⟩ :=
  ⟨[], FilledBy.untouched gen _⟩

/-- Filling a field that is not done yet with the element the reference fixes it to keeps the
prefill sound. -/
theorem PrefillSound.fill {gen : BtreeKeyGeneratorV1} {obj : BSONObj} {state : Prefill}
    (sound : PrefillSound gen obj state) {j : Nat} {value : Value}
    (pending : ¬state.isDone j = true) (fillable : Fillable ⟨obj, 0⟩ gen.fieldNames j value) :
    PrefillSound gen obj (state.fill j value) := by
  obtain ⟨fills, filledBy⟩ := sound
  exact ⟨_, filledBy.fill pending fillable.lt_length fillable⟩

theorem splitAtDot_eq_none_iff {path : List Char} : splitAtDot path = none ↔ '.' ∉ path := by
  induction path with
  | nil => simp [splitAtDot]
  | cons c rest ih =>
      by_cases dot : c = '.'
      · simp [splitAtDot, dot]
      · simp [splitAtDot, dot, ih, Ne.symm dot]

section Phases

variable {gen : BtreeKeyGeneratorV1} {obj : BSONObj}

/-- A top-level element of a simple field's name, when the name is not repeated, is the element
the reference reads for that field. -/
theorem fillable_simpleField (wellFormed : gen.WellFormed) {info : SimpleFieldInfo}
    (member : info ∈ gen.simpleFields) (unrepeated : (obj.map Prod.fst).count info.name ≤ 1)
    {e : Located} (inside : e ∈ locateFrom 4 obj) (named : e.name = info.name)
    (notArray : e.value.type ≠ .array) :
    Fillable ⟨obj, 0⟩ gen.fieldNames info.fieldIndex e.value := by
  have simple := wellFormed.simple info member
  have single : ((locateFrom 4 obj).map Located.name).count e.name ≤ 1 := by
    rw [map_name_locateFrom, named]
    exact unrepeated
  have found : (⟨obj, 0⟩ : Embedded).getField (String.ofList info.name.toList) = some e := by
    rw [String.ofList_toList, ← named]
    exact find_name_of_count_le_one inside single
  exact ⟨info.name.toList, e, simple.path,
    wellFormed.nonempty _ (List.mem_of_getElem? simple.path),
    extract_of_no_dot simple.noDot found, notArray, rfl⟩

/-- The cache read fills a field only with a top-level element of its own name that is not an
array. -/
theorem readCache_sound (wellFormed : gen.WellFormed)
    (unrepeated : ∀ info ∈ gen.simpleFields, (obj.map Prod.fst).count info.name ≤ 1)
    (cache : FieldOffsetCache) (infos : List SimpleFieldInfo) :
    (∀ info ∈ infos, info ∈ gen.simpleFields) → ∀ (state : Prefill) (cacheHits : Nat),
      PrefillSound gen obj state → PrefillSound gen obj (readCache obj cache infos (state, cacheHits)).1 := by
  induction infos with
  | nil => exact fun _ _ _ sound => sound
  | cons info infos ih =>
      intro within state cacheHits sound
      have rest := ih fun other member => within other (List.mem_cons_of_mem _ member)
      have simple := within info List.mem_cons_self
      rcases readCache_cons obj cache info infos state cacheHits with
        same | ⟨cached, pending, _, found, named, notArray, same⟩
      · rw [same]
        exact rest _ _ sound
      · rw [same]
        have inside : cached ∈ locateFrom 4 obj := List.mem_of_find?_eq_some found
        exact rest _ _ (sound.fill pending (fillable_simpleField wellFormed simple
          (unrepeated info simple) inside named notArray))

/-- One element of the Phase 1 scan fills at most the first pending simple field of its name,
and only when it is not an array. -/
theorem matchSimpleField_sound (wellFormed : gen.WellFormed)
    (unrepeated : ∀ info ∈ gen.simpleFields, (obj.map Prod.fst).count info.name ≤ 1)
    {e : Located} (inside : e ∈ locateFrom 4 obj) (docFieldLen : Nat) (state : Phase1State)
    (sound : PrefillSound gen obj state.prefill) :
    PrefillSound gen obj (matchSimpleField e docFieldLen gen.simpleFields state).prefill := by
  rw [matchSimpleField_eq]
  cases found : gen.simpleFields.find? (fun info => !state.prefill.isDone info.fieldIndex &&
      info.nameLen == docFieldLen && info.name == e.name) with
  | none => exact sound
  | some info =>
      have member := List.mem_of_find?_eq_some found
      have holds := List.find?_some found
      simp only [Bool.and_eq_true, Bool.not_eq_true', beq_iff_eq] at holds
      obtain ⟨⟨pending, _⟩, named⟩ := holds
      dsimp only
      split
      · rename_i notArray
        simp only [bne_iff_ne, ne_eq] at notArray
        exact sound.fill (by simp [pending]) (fillable_simpleField wellFormed member
          (unrepeated info member) inside named.symm notArray)
      · exact sound

/-- The whole Phase 1 scan keeps the prefill sound, whatever the bitmap and the early exit skip. -/
theorem phase1_sound (wellFormed : gen.WellFormed)
    (unrepeated : ∀ info ∈ gen.simpleFields, (obj.map Prod.fst).count info.name ≤ 1)
    (elements : List Located) :
    (∀ e ∈ elements, e ∈ locateFrom 4 obj) → ∀ state : Phase1State,
      PrefillSound gen obj state.prefill → PrefillSound gen obj (phase1 gen elements state).prefill := by
  induction elements with
  | nil => exact fun _ _ sound => sound
  | cons e elements ih =>
      intro within state sound
      have rest := ih fun other member => within other (List.mem_cons_of_mem _ member)
      simp only [phase1]
      split
      · split
        · exact rest _ (matchSimpleField_sound wellFormed unrepeated (within e List.mem_cons_self)
            _ state sound)
        · exact rest state sound
      · exact sound

/-- Phase 1 runs or is skipped; either way the prefill stays sound. -/
theorem phase1_sound_of_sound (wellFormed : gen.WellFormed)
    (unrepeated : ∀ info ∈ gen.simpleFields, (obj.map Prod.fst).count info.name ≤ 1)
    {runs : Bool} {state : Phase1State} (sound : PrefillSound gen obj state.prefill) :
    PrefillSound gen obj (if runs then phase1 gen (locateFrom 4 obj) state else state).prefill := by
  split
  · exact phase1_sound wellFormed unrepeated _ (fun _ member => member) state sound
  · exact sound

/-- A dotted field of a prefix group reaches through the group's first piece what the reference
reaches along its whole path, unless its suffix is empty. -/
theorem fillable_nestedField (wellFormed : gen.WellFormed) {prefixPath : List Char}
    {field : NestedFieldSuffix} (nested : NestedFieldOf gen.fieldNames prefixPath field)
    (suffixNonempty : field.suffix ≠ []) {prefixElt : Located} {fields : BSONObj}
    (found : (⟨obj, 0⟩ : Embedded).getField (String.ofList prefixPath) = some prefixElt)
    (isObject : prefixElt.value = .object fields) {suffixElt : Located}
    (reached : extractElementAtPathOrArrayAlongPath (prefixElt.embedded fields) field.suffix =
      (some suffixElt, [])) (notArray : suffixElt.value.type ≠ .array) :
    Fillable ⟨obj, 0⟩ gen.fieldNames field.fieldIndex suffixElt.value := by
  obtain ⟨fieldName, named, split⟩ := nested
  refine ⟨fieldName, suffixElt, named, wellFormed.nonempty _ (List.mem_of_getElem? named), ?_,
    notArray, rfl⟩
  rw [extract_of_dot split suffixNonempty found isObject]
  exact reached

/-- Phase 2 for one prefix group keeps the prefill sound. -/
theorem fillPrefixGroup_sound (wellFormed : gen.WellFormed)
    (noEmptyTail : ∀ name ∈ gen.fieldNames, ∀ split ∈ splitAtDot name, split.2 ≠ [])
    {group : PrefixGroup} (member : group ∈ gen.prefixGroups) (state : Prefill)
    (sound : PrefillSound gen obj state) :
    PrefillSound gen obj (fillPrefixGroup ⟨obj, 0⟩ state group) := by
  have groupNested := wellFormed.nested group member
  unfold fillPrefixGroup
  split
  · exact sound
  · rename_i prefixElt found
    split
    · rename_i fields isObject
      -- the group's fields in order, each filled at most once
      apply StepSystem.foldl_invariant (PrefillSound gen obj) _ group.fields _ state sound
      intro state field member sound
      have nested := groupNested field member
      have suffixNonempty : field.suffix ≠ [] := by
        intro empty
        obtain ⟨fieldName, named, split⟩ := nested
        exact noEmptyTail fieldName (List.mem_of_getElem? named) _ split empty
      split
      · exact sound
      · rename_i pending
        split
        · rename_i suffixElt suffixPath reached
          split
          · rename_i check
            simp only [Bool.and_eq_true, bne_iff_ne, ne_eq, List.isEmpty_iff] at check
            rw [check.2] at reached
            exact sound.fill pending (fillable_nestedField wellFormed nested suffixNonempty
              found isObject reached check.1)
          · exact sound
        · exact sound
    · exact sound

theorem foldl_fillPrefixGroup_sound (wellFormed : gen.WellFormed)
    (noEmptyTail : ∀ name ∈ gen.fieldNames, ∀ split ∈ splitAtDot name, split.2 ≠ [])
    (state : Prefill) (sound : PrefillSound gen obj state) :
    PrefillSound gen obj (gen.prefixGroups.foldl (fillPrefixGroup ⟨obj, 0⟩) state) :=
  StepSystem.foldl_invariant _ _ gen.prefixGroups
    (fun state _ member sound => fillPrefixGroup_sound wellFormed noEmptyTail member state sound)
    state sound

end Phases

/-- `getKeysImplWithArray` on a sound prefill computes the reference's keys. -/
theorem getKeysImplWithArray_of_sound {gen : BtreeKeyGeneratorV1} (ctx : KeyContext)
    {obj : BSONObj} {state : Prefill} (sound : PrefillSound gen obj state) (out : KeyOutput) :
    getKeysImplWithArray gen ctx (keyFuel obj) state.fieldNames state.fixed ⟨obj, 0⟩ 0
        gen.emptyPositionalInfo out =
      getKeysImplWithArray gen ctx (keyFuel obj) gen.fieldNames (gen.fieldNames.map fun _ => none)
        ⟨obj, 0⟩ 0 gen.emptyPositionalInfo out := by
  obtain ⟨fills, filled, distinct, within, fillable⟩ := sound
  exact getKeysImplWithArray_applyFills gen ctx obj.objsize ⟨obj, 0⟩ out filled distinct
    within fillable

/-- With no simple field's name repeated at the top of the document and no dotted field that
ends in an empty piece, `getKeysImpl` computes the reference's keys, whatever the cache holds. -/
theorem getKeysImpl_eq_reference {gen : BtreeKeyGeneratorV1} (wellFormed : gen.WellFormed)
    (ctx : KeyContext) (obj : BSONObj) (docPtr : Nat) (multikeyPaths : Option MultikeyPaths)
    (cache : FieldOffsetCache)
    (unrepeated : ∀ info ∈ gen.simpleFields, (obj.map Prod.fst).count info.name ≤ 1)
    (noEmptyTail : ∀ name ∈ gen.fieldNames, ∀ split ∈ splitAtDot name, split.2 ≠ []) :
    (getKeysImpl gen ctx obj docPtr multikeyPaths cache).1 =
      getKeysImplReference gen ctx obj multikeyPaths := by
  have untouched := PrefillSound.untouched gen obj
  simp only [getKeysImpl, getKeysImplReference]
  split
  · rfl
  · rw [getKeysImplWithArray_of_sound ctx (foldl_fillPrefixGroup_sound wellFormed noEmptyTail _ _)]
    -- the cache read, then Phase 1, each keep the untouched prefill sound
    apply phase1_sound_of_sound wellFormed unrepeated
    split
    · exact readCache_sound wellFormed unrepeated _ _ (fun _ member => member) _ 0 untouched
    · exact untouched

/-- What the constructor makes of an undotted field: a field of the pattern without a dot. -/
theorem mem_fieldNames_of_simpleField {pattern : KeyPattern} {isSparse : Bool}
    {info : SimpleFieldInfo} (member : info ∈ (BtreeKeyGeneratorV1.make pattern isSparse).simpleFields) :
    info.name ∈ pattern.fieldNames ∧ '.' ∉ info.name.toList := by
  have simple := (make_wellFormed pattern isSparse).simple info member
  have path := simple.path
  simp only [BtreeKeyGeneratorV1.make, List.getElem?_map, Option.map_eq_some_iff] at path
  obtain ⟨name, found, same⟩ := path
  rw [String.toList_inj] at same
  exact ⟨same ▸ List.mem_of_getElem? found, splitAtDot_eq_none_iff.mp simple.noDot⟩

/-- `getKeys` with no caller cache gives the reference's keys, multikey paths and errors, for a
pattern whose dotted fields each have something after their first dot, on a document in which no
undotted field of the pattern is repeated at the top level. -/
theorem getKeys_eq_reference (pattern : KeyPattern) (isSparse : Bool) (ctx : KeyContext)
    (obj : BSONObj) (docPtr : Nat) (multikeyPaths : Option MultikeyPaths)
    (unrepeated : ∀ name ∈ pattern.fieldNames, '.' ∉ name.toList →
      (obj.map Prod.fst).count name ≤ 1)
    (noEmptyTail : ∀ name ∈ pattern.fieldNames, ∀ split ∈ splitAtDot name.toList, split.2 ≠ []) :
    getKeys (BtreeKeyGeneratorV1.make pattern isSparse) ctx obj docPtr multikeyPaths none =
      (getKeysReference (BtreeKeyGeneratorV1.make pattern isSparse) ctx obj multikeyPaths, none) := by
  have simpleUnrepeated : ∀ info ∈ (BtreeKeyGeneratorV1.make pattern isSparse).simpleFields,
      (obj.map Prod.fst).count info.name ≤ 1 := fun info member =>
    unrepeated info.name (mem_fieldNames_of_simpleField member).1
      (mem_fieldNames_of_simpleField member).2
  have tails : ∀ name ∈ (BtreeKeyGeneratorV1.make pattern isSparse).fieldNames,
      ∀ split ∈ splitAtDot name, split.2 ≠ [] := by
    intro name member
    simp only [BtreeKeyGeneratorV1.make, List.mem_map] at member
    obtain ⟨text, inside, rfl⟩ := member
    exact noEmptyTail text inside
  have same := getKeysImpl_eq_reference (make_wellFormed pattern isSparse) ctx obj docPtr
    multikeyPaths FieldOffsetCache.fresh simpleUnrepeated tails
  simp only [getKeys, getKeysReference, Option.getD_none, Option.map_none, same]

/-- Key generation without a collator: each element is appended as it is. -/
def plainKeys : KeyContext := ⟨fun value => .ok value, fun _ => ""⟩

/-- A pattern with an undotted field and a prefix group of two dotted fields. -/
def groupedPattern : KeyPattern := ⟨["a", "b.c", "b.d"], by decide⟩

/-- A document whose prefix group reaches an array. -/
def nestedDoc : BSONObj :=
  [("a", .scalar (.numberInt 1)),
   ("b", .object [("c", .array [("0", .scalar (.numberInt 2)), ("1", .scalar (.numberInt 3))]),
     ("d", .scalar (.numberInt 4))])]

example :
    getKeys (BtreeKeyGeneratorV1.make groupedPattern false) plainKeys nestedDoc 0 (some []) none =
      (getKeysReference (BtreeKeyGeneratorV1.make groupedPattern false) plainKeys nestedDoc
        (some []), none) :=
  getKeys_eq_reference groupedPattern false plainKeys nestedDoc 0 (some []) (by decide) (by decide)

/-- The key pattern {a: 1}. -/
def onlyA : KeyPattern := ⟨["a"], by decide⟩

/-- {a: [1, 2], a: 5}: the first `a` is an array. -/
def repeatedA : BSONObj :=
  [("a", .array [("0", .scalar (.numberInt 1)), ("1", .scalar (.numberInt 2))]),
   ("a", .scalar (.numberInt 5))]

end FastMongo.Index

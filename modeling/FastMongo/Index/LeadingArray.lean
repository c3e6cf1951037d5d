import FastMongo.Index.SharedCache

/-!
Where `BtreeKeyGeneratorV1::getKeys` parts from the reference on a key pattern of one undotted
field `f`: a document whose first element named `f` is an array of several entries and that has a
later `f` that is not an array. The reference's `getField` reads the first `f` and expands the
array, a key for each entry, and marks `f` multikey. Phase 1 passes over arrays and fills `f`
with the later element, which gives one key and nothing multikey.
-/

namespace FastMongo.Index

open FastMongo.Bson

/-- `buildKey` of one fixed element. -/
theorem buildKey_single (ctx : KeyContext) (value : Value) :
    buildKey ctx [some value] = (ctx.appendKey value).map fun key => [key] := by
  cases appended : ctx.appendKey value <;> simp [buildKey, appended, List.mapM_cons, Except.map]

/-- A level whose one field is done builds one key from the fixed element. -/
theorem getKeysImplWithArray_done (gen : BtreeKeyGeneratorV1) (ctx : KeyContext) (fuel : Nat)
    (fixed : List (Option Value)) (obj : Embedded) (positionalInfo : List PositionalPathInfo)
    (out : KeyOutput) :
    getKeysImplWithArray gen ctx (fuel + 1) [[]] fixed obj 0 positionalInfo out =
      (buildKey ctx fixed).map fun key => { out with keys := out.keys ++ [key] } := by
  rw [getKeysImplWithArray_succ]
  have scanned : (List.range [([] : List Char)].length).foldlM (scanField ctx obj positionalInfo)
      (ArrayScan.start [[]] fixed) = .ok (ArrayScan.start [[]] fixed) := by
    have done : (ArrayScan.start [[]] fixed).fieldNames.getD 0 [] = [] := rfl
    simp [scanField_done ctx obj positionalInfo done]
  rw [scanned]
  cases built : buildKey ctx fixed <;> simp [expandArray, ArrayScan.start, built, Except.map]

/-- No field of a key pattern is empty. -/
theorem KeyPattern.toList_ne_nil {pattern : KeyPattern} {name : String}
    (member : name ∈ pattern.fieldNames) : name.toList ≠ [] := by
  simpa using pattern.nonempty name member

/-- The generator of a key pattern with one undotted field. -/
theorem make_singleField {pattern : KeyPattern} {f : String} (single : pattern.fieldNames = [f])
    (noDot : '.' ∉ f.toList) (isSparse : Bool) :
    BtreeKeyGeneratorV1.make pattern isSparse =
      ⟨[f.toList], [f] == ["_id"], isSparse, [1], [⟨0, (utf8 f).length, f, computeCacheSlot f⟩],
        (0 : UInt64) ||| (1 <<< ((utf8 f).length % 64).toUInt64), []⟩ := by
  have split : splitAtDot f.toList = none := splitAtDot_eq_none_iff.mpr noDot
  have nonempty := KeyPattern.toList_ne_nil (show f ∈ pattern.fieldNames by simp [single])
  have parts : numParts f.toList = 1 := by
    simp [numParts, nonempty, List.count_eq_zero.mpr noDot]
  simp [BtreeKeyGeneratorV1.make, single, scanPattern, PatternScan.add, split, parts]

/-- The first loop at the top of a document whose first element named `f` is an array: the field
joins the array path. -/
theorem scanField_leadingArray (gen : BtreeKeyGeneratorV1) (ctx : KeyContext) {f : String}
    (noDot : '.' ∉ f.toList) (nonempty : f.toList ≠ []) {doc : BSONObj} {items : BSONObj} {offset : Nat}
    (found : (⟨doc, 0⟩ : Embedded).getField f = some ⟨f, .array items, offset⟩) :
    (List.range 1).foldlM (scanField ctx ⟨doc, 0⟩ gen.emptyPositionalInfo)
        (ArrayScan.start [f.toList] [none]) =
      .ok ⟨[[]], [none], 0, some ⟨f, .array items, offset⟩, [0], true⟩ := by
  have split : splitAtDot f.toList = none := splitAtDot_eq_none_iff.mpr noDot
  have present : ((⟨doc, 0⟩ : Embedded).getField (String.ofList (beforeDot f.toList))).isSome = true := by
    simp [beforeDot, split, found]
  have reached := extract_of_no_dot split (by simpa using found)
  have notEmpty : f.toList.isEmpty = false := by simpa using nonempty
  have topLevel : gen.emptyPositionalInfo[0]?.getD .empty = .empty := by
    simpa [List.getD_eq_getElem?_getD] using getD_emptyPositionalInfo gen 0
  simp [scanField, ArrayScan.start, topLevel, extractNextElement_empty ctx _ present, reached, notEmpty]

/-- Each entry of an expanded array whose one field ends at it adds one key and leaves the multikey
paths alone. -/
theorem getKeysImplWithArray_done_oneKey (gen : BtreeKeyGeneratorV1) (ctx : KeyContext) (fuel : Nat)
    (fixed : List (Option Value)) (obj : Embedded) (positionalInfo : List PositionalPathInfo)
    {out result : KeyOutput}
    (keyed : getKeysImplWithArray gen ctx (fuel + 1) [[]] fixed obj 0 positionalInfo out = .ok result) :
    result.keys.length = out.keys.length + 1 ∧ result.multikeyPaths = out.multikeyPaths := by
  rw [getKeysImplWithArray_done] at keyed
  cases built : buildKey ctx fixed with
  | error status => simp [built, Except.map] at keyed
  | ok key =>
      simp only [built, Except.map, Except.ok.injEq] at keyed
      subst keyed
      simp

/-- Expanding a top-level array of several entries into which a single field ends: one key per entry,
and the field's first path component marked multikey. -/
theorem expandArray_leadingArray (gen : BtreeKeyGeneratorV1) (ctx : KeyContext) (fuel : Nat)
    {f : String} {items : BSONObj} {offset : Nat} (several : 1 < items.length)
    (pathLength : gen.pathLengths = [1]) {out0 out : KeyOutput}
    (expanded : expandArray gen ctx (getKeysImplWithArray gen ctx (fuel + 1))
      ⟨[[]], [none], 0, some ⟨f, .array items, offset⟩, [0], true⟩ out0 = .ok out) :
    out.keys.length = out0.keys.length + items.length ∧
      out.multikeyPaths = out0.multikeyPaths.map fun paths => insertComponent paths 0 0 := by
  have notEmpty : items.isEmpty = false := by
    cases items with
    | nil => simp at several
    | cons _ _ => rfl
  have sub : (List.range [([] : List Char)].length).map
      (subPositional gen ((⟨f, .array items, offset⟩ : Located).embedded items)
        ⟨[[]], [none], 0, some ⟨f, .array items, offset⟩, [0], true⟩) = [(.empty, some 0)] := by
    simp [subPositional, pathLength]
  unfold expandArray at expanded
  simp only [notEmpty, Bool.false_eq_true, ↓reduceIte, sub] at expanded
  split at expanded
  · cases expanded
  · rename_i fixed out' folded
    -- every entry adds one key through the recursive call and keeps the multikey paths
    have counted := StepSystem.foldlM_invariant
      (fun taken acc => acc.2.keys.length = out0.keys.length + taken ∧
        acc.2.multikeyPaths = out0.multikeyPaths) _ ?_ _ 0 _ _ ⟨rfl, rfl⟩ folded
    · have entries : ((⟨f, .array items, offset⟩ : Located).embedded items).elements.length =
          items.length := by
        simpa [Embedded.elements, Located.embedded] using
          congrArg List.length (map_name_locateFrom _ items)
      rw [if_pos several] at expanded
      cases expanded
      simp only [entries, Nat.zero_add] at counted
      refine ⟨counted.1, ?_⟩
      simp [counted.2]
    · intro taken acc entry result holds stepped
      split at stepped
      · cases stepped
      · rename_i next keyed
        cases stepped
        obtain ⟨count, paths⟩ := getKeysImplWithArray_done_oneKey gen ctx fuel _ _ _ keyed
        exact ⟨by rw [count, holds.1, Nat.add_assoc], paths.trans holds.2⟩

/-- The reference on a single field whose first element is an array of several entries: a key for
each entry, and the field multikey. -/
theorem getKeysReference_leadingArray {pattern : KeyPattern} {f : String}
    (single : pattern.fieldNames = [f]) (noDot : '.' ∉ f.toList) (notId : f ≠ "_id") (isSparse : Bool)
    (ctx : KeyContext) {pre rest items : BSONObj} (absent : ∀ field ∈ pre, field.1 ≠ f)
    (several : 1 < items.length) (multikeyPaths : Option MultikeyPaths) {out : KeyOutput}
    (keyed : getKeysReference (BtreeKeyGeneratorV1.make pattern isSparse) ctx
      (pre ++ (f, .array items) :: rest) multikeyPaths = .ok out) :
    out.keys.length = items.length ∧ out.multikeyPaths = multikeyPaths.map fun _ => [[0]] := by
  obtain ⟨offset, found⟩ : ∃ offset, (⟨pre ++ (f, .array items) :: rest, 0⟩ : Embedded).getField f =
      some ⟨f, .array items, offset⟩ := getField_append_cons absent
  have nonempty := KeyPattern.toList_ne_nil (show f ∈ pattern.fieldNames by simp [single])
  obtain ⟨fuel, fueled⟩ : ∃ fuel, (pre ++ (f, .array items) :: rest).objsize = fuel + 1 :=
    ⟨_, objsize_eq _⟩
  have shape := make_singleField single noDot isSparse
  unfold getKeysReference getKeysImplReference at keyed
  generalize BtreeKeyGeneratorV1.make pattern isSparse = gen at keyed shape
  have names : gen.fieldNames = [f.toList] := by rw [shape]
  have idIndex : gen.isIdIndex = false := by simp [shape, notId]
  have lengths : gen.pathLengths = [1] := by rw [shape]
  simp only [idIndex, Bool.false_eq_true, ↓reduceIte, keyFuel, fueled, getKeysImplWithArray_succ,
    names, List.length_singleton, List.map_cons, List.map_nil,
    scanField_leadingArray gen ctx noDot nonempty found, BtreeKeyGeneratorV1.resizedPaths] at keyed
  cases expanded : expandArray gen ctx (getKeysImplWithArray gen ctx (fuel + 1))
      ⟨[[]], [none], 0, some ⟨f, .array items, offset⟩, [0], true⟩
      ⟨[], multikeyPaths.map fun _ => [[]]⟩ with
  | error status => simp [withNullKey, expanded] at keyed
  | ok expandedOut =>
      obtain ⟨count, paths⟩ := expandArray_leadingArray gen ctx fuel several lengths expanded
      -- several keys: `withNullKey` has nothing to add
      have keysNonempty : expandedOut.keys.isEmpty = false := by
        rw [List.isEmpty_eq_false_iff, ← List.length_pos_iff, count]
        omega
      simp only [withNullKey, expanded, keysNonempty, Bool.false_and, Bool.false_eq_true, ↓reduceIte,
        Except.ok.injEq] at keyed
      subst keyed
      refine ⟨by simpa using count, ?_⟩
      rw [paths, Option.map_map]
      rfl

/-- Phase 1 for a single undotted field `f` passes over the elements before the first `f`, over
that `f`, which is an array, and over later arrays named `f`, and takes the first `f` that is not
an array. -/
theorem phase1_leadingArray (gen : BtreeKeyGeneratorV1) {f : String}
    (simple : gen.simpleFields = [⟨0, (utf8 f).length, f, computeCacheSlot f⟩])
    (admitted : bitmapAdmits gen.simpleLengthBitmap (utf8 f).length = true)
    {pre items mid post : BSONObj} {later : Value} (absent : ∀ field ∈ pre, field.1 ≠ f)
    (midArrays : ∀ field ∈ mid, field.1 = f → field.2.type = .array)
    (laterNotArray : later.type ≠ .array) (state : Phase1State) (nothingFound : state.foundCount = 0)
    (pending : ¬state.prefill.isDone 0 = true) :
    (phase1 gen (locateFrom 4 (pre ++ (f, .array items) :: (mid ++ (f, later) :: post))) state).prefill =
      state.prefill.fill 0 later := by
  obtain ⟨first, atArray⟩ := locateFrom_append 4 pre ((f, .array items) :: (mid ++ (f, later) :: post))
  obtain ⟨second, atLater⟩ := locateFrom_append (first + (elementBytes (f, .array items)).length) mid
    ((f, later) :: post)
  have passedOver : ∀ e ∈ locateFrom 4 pre ++ ⟨f, .array items, first⟩ ::
      locateFrom (first + (elementBytes (f, .array items)).length) mid,
      ∀ info ∈ gen.simpleFields, info.name = e.name → e.value.type = .array := by
    intro e member info simpleField named
    rw [simple, List.mem_singleton] at simpleField
    subst simpleField
    rcases List.mem_append.mp member with inPre | inRest
    · exact absurd named.symm (absent _ (mem_locateFrom inPre))
    · rcases List.mem_cons.mp inRest with isArray | inMid
      · rw [isArray]
        rfl
      · exact midArrays _ (mem_locateFrom inMid) named.symm
  rw [atArray, locateFrom, atLater, locateFrom, ← List.cons_append, ← List.append_assoc,
    phase1_append_of_unmatched gen _ state _ passedOver]
  simp only [phase1, nothingFound, simple, List.length_singleton, Nat.lt_one_iff, ↓reduceIte, admitted,
    matchSimpleField, pending, Bool.false_eq_true, ne_eq, not_true_eq_false, bne_iff_ne, laterNotArray,
    not_false_eq_true]
  -- the one undotted field is found: the scan stops
  rw [phase1_of_found gen _ (by simp [simple])]

/-- `getKeys` with no caller cache on a single undotted field: the key of the first element of the
name that is not an array, whatever arrays of the name come before it, and nothing multikey. -/
theorem getKeys_leadingArray {pattern : KeyPattern} {f : String}
    (single : pattern.fieldNames = [f]) (noDot : '.' ∉ f.toList) (notId : f ≠ "_id") (isSparse : Bool)
    (ctx : KeyContext) {pre items mid post : BSONObj} {later : Value}
    (absent : ∀ field ∈ pre, field.1 ≠ f)
    (midArrays : ∀ field ∈ mid, field.1 = f → field.2.type = .array)
    (laterNotArray : later.type ≠ .array) (docPtr : Nat) (multikeyPaths : Option MultikeyPaths) :
    (getKeys (BtreeKeyGeneratorV1.make pattern isSparse) ctx
        (pre ++ (f, .array items) :: (mid ++ (f, later) :: post)) docPtr multikeyPaths none).1 =
      (ctx.appendKey later).map fun key => ⟨[[key]], multikeyPaths.map fun _ => [[]]⟩ := by
  have nonempty := KeyPattern.toList_ne_nil (show f ∈ pattern.fieldNames by simp [single])
  obtain ⟨fuel, fueled⟩ : ∃ fuel, (pre ++ (f, .array items) :: (mid ++ (f, later) :: post)).objsize =
      fuel + 1 := ⟨_, objsize_eq _⟩
  have shape := make_singleField single noDot isSparse
  unfold getKeys getKeysImpl
  generalize BtreeKeyGeneratorV1.make pattern isSparse = gen at shape
  have names : gen.fieldNames = [f.toList] := by rw [shape]
  have idIndex : gen.isIdIndex = false := by simp [shape, notId]
  have simple : gen.simpleFields = [⟨0, (utf8 f).length, f, computeCacheSlot f⟩] := by rw [shape]
  have groups : gen.prefixGroups = [] := by rw [shape]
  have admitted : bitmapAdmits gen.simpleLengthBitmap (utf8 f).length = true := by
    rw [shape]
    exact (bitmapAdmits_or 0).1
  have scanned : (phase1 gen (locateFrom 4 (pre ++ (f, .array items) :: (mid ++ (f, later) :: post)))
      ⟨⟨[f.toList], [none]⟩, FieldOffsetCache.init docPtr (fuel + 1), 0⟩).prefill =
        ⟨[[]], [some later]⟩ :=
    phase1_leadingArray gen simple admitted absent midArrays laterNotArray _ rfl
      (by simp [Prefill.isDone, nonempty])
  have invalid : FieldOffsetCache.fresh.isValidFor docPtr (fuel + 1) = false := by
    rw [← fueled]
    exact FieldOffsetCache.fresh_isValidFor _ docPtr
  simp only [idIndex, Bool.false_eq_true, ↓reduceIte, invalid, Option.getD_none,
    Bool.false_and, simple, List.isEmpty_cons, Bool.not_false, List.length_singleton, Nat.zero_lt_one,
    decide_true, Bool.and_self, names, List.map_cons, List.map_nil, groups, List.foldl_nil, fueled, scanned,
    keyFuel, getKeysImplWithArray_done, buildKey_single, BtreeKeyGeneratorV1.resizedPaths]
  cases ctx.appendKey later <;> simp [Except.map, withNullKey]

/-- On the key pattern {f: 1}, a document whose first `f` is an array of several entries and that
has a later `f` that is not an array: `getKeys` keys the later element alone and marks nothing
multikey, the reference keys every entry of the array and marks `f` multikey, so the two differ
whenever the later element has a key. -/
theorem getKeys_leadingArray_diverges {pattern : KeyPattern} {f : String}
    (single : pattern.fieldNames = [f]) (noDot : '.' ∉ f.toList) (notId : f ≠ "_id") (isSparse : Bool)
    (ctx : KeyContext) {pre items mid post : BSONObj} {later : Value}
    (absent : ∀ field ∈ pre, field.1 ≠ f)
    (midArrays : ∀ field ∈ mid, field.1 = f → field.2.type = .array)
    (several : 1 < items.length) (laterNotArray : later.type ≠ .array) (docPtr : Nat)
    (multikeyPaths : Option MultikeyPaths) :
    let gen := BtreeKeyGeneratorV1.make pattern isSparse
    let doc := pre ++ (f, .array items) :: (mid ++ (f, later) :: post)
    (getKeys gen ctx doc docPtr multikeyPaths none).1 =
        (ctx.appendKey later).map (fun key => ⟨[[key]], multikeyPaths.map fun _ => [[]]⟩) ∧
      (∀ out, getKeysReference gen ctx doc multikeyPaths = .ok out →
        out.keys.length = items.length ∧ out.multikeyPaths = multikeyPaths.map fun _ => [[0]]) ∧
      ∀ key, ctx.appendKey later = .ok key →
        getKeys gen ctx doc docPtr multikeyPaths none ≠
          (getKeysReference gen ctx doc multikeyPaths, none) := by
  intro gen doc
  have fast : (getKeys gen ctx doc docPtr multikeyPaths none).1 =
      (ctx.appendKey later).map fun key => ⟨[[key]], multikeyPaths.map fun _ => [[]]⟩ :=
    getKeys_leadingArray single noDot notId isSparse ctx absent midArrays laterNotArray docPtr
      multikeyPaths
  have reference : ∀ out, getKeysReference gen ctx doc multikeyPaths = .ok out →
      out.keys.length = items.length ∧ out.multikeyPaths = multikeyPaths.map fun _ => [[0]] :=
    fun out keyed => getKeysReference_leadingArray single noDot notId isSparse ctx absent several
      multikeyPaths keyed
  refine ⟨fast, reference, ?_⟩
  intro key appended same
  have keysOf := congrArg Prod.fst same
  rw [fast, appended] at keysOf
  -- one key on the fast path against a key for each of the several entries
  have counted := (reference _ keysOf.symm).1
  simp at counted
  omega

theorem getKeys_leadingArray_diverges_repeatedA :
    onlyA.fieldNames = ["a"] ∧ '.' ∉ "a".toList ∧ "a" ≠ "_id" ∧
      (∀ field ∈ ([] : BSONObj), field.1 ≠ "a") ∧
      (∀ field ∈ ([] : BSONObj), field.1 = "a" → field.2.type = .array) ∧
      1 < [("0", Value.scalar (.numberInt 1)), ("1", .scalar (.numberInt 2))].length ∧
      (Value.scalar (.numberInt 5)).type ≠ .array ∧
      (getKeys (BtreeKeyGeneratorV1.make onlyA false) plainKeys repeatedA 0 (some []) none).1 =
        .ok ⟨[[.scalar (.numberInt 5)]], some [[]]⟩ ∧
      (∀ out, getKeysReference (BtreeKeyGeneratorV1.make onlyA false) plainKeys repeatedA (some []) =
        .ok out → out.keys.length = 2 ∧ out.multikeyPaths = some [[0]]) ∧
      getKeys (BtreeKeyGeneratorV1.make onlyA false) plainKeys repeatedA 0 (some []) none ≠
        (getKeysReference (BtreeKeyGeneratorV1.make onlyA false) plainKeys repeatedA (some []), none) := by
  have noDot : '.' ∉ "a".toList := by decide
  have notId : "a" ≠ "_id" := by decide
  have absent : ∀ field ∈ ([] : BSONObj), field.1 ≠ "a" := by simp
  have midArrays : ∀ field ∈ ([] : BSONObj), field.1 = "a" → field.2.type = .array := by simp
  have several : 1 < [("0", Value.scalar (.numberInt 1)), ("1", .scalar (.numberInt 2))].length := by
    decide
  have laterNotArray : (Value.scalar (.numberInt 5)).type ≠ .array := by decide
  obtain ⟨fast, reference, differ⟩ := @getKeys_leadingArray_diverges onlyA "a" rfl noDot notId false
    plainKeys [] _ [] [] _ absent midArrays several laterNotArray 0 (some [])
  exact ⟨rfl, noDot, notId, absent, midArrays, several, laterNotArray, fast, reference, differ _ rfl⟩

end FastMongo.Index

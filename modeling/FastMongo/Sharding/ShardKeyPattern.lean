import FastMongo.Matcher.Path

/-!
`ShardKeyPattern` of `shard_key_pattern.cpp`: the parse of a key pattern and the extraction of
a document's shard key. `extractShardKeyFromMatchable` looks every pattern path up through the
matcher's `ElementPath`; `extractShardKeyFromDoc` takes a fast path when every path has one
part and looks the field up with `doc[fieldName]`. The hash of a hashed key,
`BSONElementHasher::hash64` with the default seed, is an MD5 digest of the value that is not
modelled here; the check of a code-with-scope's scope reads a document this model keeps as its
encoded bytes. Both are parameters.
-/

namespace FastMongo.Bson

/-- `(int)` of a double as the x86-64 conversion `cvttsd2si` computes it: the value truncated
toward zero, or the integer indefinite `INT_MIN` for NaN, the infinities and values out of
range. The double is its IEEE bits. -/
def doubleToInt (bits : UInt64) : Int32 :=
  let exponent := (bits.toNat >>> 52) % 2048
  let fraction := bits.toNat % 2 ^ 52
  if exponent = 2047 then Int32.minValue
  else
    let significand := if exponent = 0 then fraction else fraction + 2 ^ 52
    -- the value is `significand * 2 ^ (max exponent 1 - 1075)`
    let scale : Int := (max exponent 1 : Nat) - 1075
    let magnitude : Nat :=
      if 0 ≤ scale then significand * 2 ^ scale.toNat else significand / 2 ^ (-scale).toNat
    let value : Int := if bits.toNat >>> 63 = 1 then -magnitude else magnitude
    if -2 ^ 31 ≤ value ∧ value < 2 ^ 31 then Int32.ofInt value else Int32.minValue

/-- `Decimal128::toInt()`, that is `bid128_to_int32_rnint` of the little-endian BID encoding:
the value rounded half to even, `INT_MIN` for NaN, the infinities and values out of range. A
coefficient above `10^34 - 1`, and every coefficient of the large form, is non-canonical and
read as zero. -/
def decimalToInt (bytes : Vector UInt8 16) : Int32 :=
  let bits := bytes.toList.foldr (fun byte high => byte.toNat + 256 * high) 0
  if (bits >>> 122) % 32 ≥ 30 then Int32.minValue
  else
    let large := (bits >>> 125) % 4 = 3
    let exponent := if large then (bits >>> 111) % 2 ^ 14 else (bits >>> 113) % 2 ^ 14
    let coefficient := if large ∨ bits % 2 ^ 113 ≥ 10 ^ 34 then 0 else bits % 2 ^ 113
    let magnitude : Nat :=
      if exponent ≥ 6176 then coefficient * 10 ^ (exponent - 6176)
      else
        let unit := 10 ^ (6176 - exponent)
        let quotient := coefficient / unit
        let remainder := coefficient % unit
        if 2 * remainder > unit ∨ (2 * remainder = unit ∧ quotient % 2 = 1) then quotient + 1
        else quotient
    let value : Int := if bits >>> 127 = 1 then -magnitude else magnitude
    if -2 ^ 31 ≤ value ∧ value < 2 ^ 31 then Int32.ofInt value else Int32.minValue

/-- `BSONElement::isNumber`. -/
def Value.isNumber : Value → Bool
  | .scalar (.numberDouble _) | .scalar (.numberInt _) | .scalar (.numberLong _)
  | .scalar (.numberDecimal _) => true
  | _ => false

/-- `BSONElement::numberInt`: a long is cut to its low 32 bits by the `(int)` cast. -/
def Value.numberInt : Value → Int32
  | .scalar (.numberDouble bits) => doubleToInt bits
  | .scalar (.numberInt value) => value
  | .scalar (.numberLong value) => value.toInt32
  | .scalar (.numberDecimal bytes) => decimalToInt bytes
  | _ => 0

example : (Value.scalar (.numberDouble 0x3FF8000000000000)).numberInt = 1 := by decide

end FastMongo.Bson

namespace FastMongo.Sharding

open FastMongo.Bson FastMongo.Matcher

section Storage

variable (scopeOkForStorage : List UInt8 → Bool)

mutual
/-- `BSONObj::_okForStorage(false, true).isOK()` from an element on, `first` when it is the
document's first: a `$`-prefixed name is refused unless the document starts as a DBRef (`$ref`
a string, then `$id`), a dotted name is refused, and embedded documents, arrays and scopes are
checked in turn. -/
def okForStorageFrom (first : Bool) : BSONObj → Bool
  | [] => true
  | (name, value) :: rest =>
      if name.toList.head? = some '$' then
        if first && name == "$ref" && value.type == .string then
          match rest with
          | (idName, _) :: afterId => if idName == "$id" then okForStorageAfterId afterId else false
          | [] => false
        else false
      else okForStorageElement (name, value) && okForStorageFrom false rest

/-- The elements after a DBRef's `$ref` and `$id`, neither of which is looked at again: an
optional `$db` string is skipped, and the element after `$id` may not start with `$`. -/
def okForStorageAfterId : BSONObj → Bool
  | [] => true
  | (name, value) :: rest =>
      if name == "$db" && value.type == .string then okForStorageFrom false rest
      else if name.toList.head? = some '$' then false
      else okForStorageElement (name, value) && okForStorageFrom false rest

/-- The checks of one element below the `$` test: no dot in its name, and its embedded
document, array or scope ok for storage. -/
def okForStorageElement : BSONElement → Bool
  | (name, value) => !name.toList.contains '.' && okForStorageValue value

/-- The deep check of a value that may hold a document. -/
def okForStorageValue : Value → Bool
  | .object fields => okForStorageFrom true fields
  | .array items => okForStorageFrom true items
  | .scalar (.codeWScope _ scope) => scopeOkForStorage scope
  | .scalar _ => true
end

/-- `BSONObj::okForStorage`. -/
def okForStorage (obj : BSONObj) : Bool :=
  okForStorageFrom scopeOkForStorage true obj

/-- `isShardKeyElement`: EOO and arrays are never shard key values, a regular expression only
when allowed, and an embedded document only when it is ok for storage. -/
def isShardKeyElement (element : Option BSONElement) (allowRegex : Bool) : Bool :=
  match element with
  | none => false
  | some (_, .array _) => false
  | some (_, .object fields) => okForStorage scopeOkForStorage fields
  | some (_, .scalar value) => allowRegex || value.type != .regEx

end Storage

/-- `isHashedPatternEl`: the string `IndexNames::HASHED`. -/
def isHashedPatternEl (el : BSONElement) : Bool :=
  el.2 == .scalar (.string "hashed")

/-- One element of `parseShardKeyPattern`'s loop: its path, or none where the source returns
the empty vector (an empty path, an empty part, a pattern value neither the number 1 nor the
`"hashed"` of a single field). -/
def parsePatternEl (nFields : Nat) (patternEl : BSONElement) : Option FieldRef :=
  let patternPath := FieldRef.parse patternEl.1
  if patternPath.numParts = 0 then none
  else if patternPath.dottedField 0 ≠ patternEl.1 then none
  else if patternPath.parts.any String.isEmpty then none
  else if !patternEl.2.isNumber then
    if nFields ≠ 1 || !isHashedPatternEl patternEl then none else some patternPath
  else if patternEl.2.numberInt ≠ 1 then none
  else some patternPath

/-- `parseShardKeyPattern`: a path per element, or none at all. -/
def parseShardKeyPattern (keyPattern : BSONObj) : List FieldRef :=
  (keyPattern.mapM (parsePatternEl keyPattern.length)).getD []

/-- `ShardKeyPattern::computeAllTopLevel`. -/
def computeAllTopLevel (paths : List FieldRef) : Bool :=
  paths.all (fun path => path.numParts == 1) && !paths.isEmpty

/-- A `ShardKeyPattern` as its constructor leaves it: the parsed paths, the key pattern (empty
when the parse failed) and the fast-path flag. The paths are those of the pattern's field names,
one for each, in order. -/
structure ShardKeyPattern where
  keyPatternPaths : List FieldRef
  keyPattern : BSONObj
  allTopLevel : Bool
  paths_eq : keyPatternPaths = keyPattern.map fun patternEl => FieldRef.parse patternEl.1
  allTopLevel_eq : allTopLevel = computeAllTopLevel keyPatternPaths

/-- What `parsePatternEl` accepts is the parse of the field name. -/
theorem parsePatternEl_eq {nFields : Nat} {patternEl : BSONElement} {path : FieldRef}
    (parsed : parsePatternEl nFields patternEl = some path) : path = FieldRef.parse patternEl.1 := by
  unfold parsePatternEl at parsed
  split_ifs at parsed <;> simp_all

theorem parseShardKeyPattern_eq_map {keyPattern : BSONObj} {paths : List FieldRef}
    (parsed : keyPattern.mapM (parsePatternEl keyPattern.length) = some paths) :
    paths = keyPattern.map fun patternEl => FieldRef.parse patternEl.1 := by
  generalize keyPattern.length = nFields at parsed
  induction keyPattern generalizing paths with
  | nil => simp_all
  | cons patternEl rest ih =>
      simp only [List.mapM_cons, Option.pure_def, Option.bind_eq_bind, Option.bind_eq_some_iff,
        Option.some.injEq] at parsed
      obtain ⟨path, first, more, others, rfl⟩ := parsed
      simp [parsePatternEl_eq first, ih others]

/-- `ShardKeyPattern(keyPattern)`. -/
def ShardKeyPattern.make (keyPattern : BSONObj) : ShardKeyPattern where
  keyPatternPaths := parseShardKeyPattern keyPattern
  keyPattern := if (parseShardKeyPattern keyPattern).isEmpty then [] else keyPattern
  allTopLevel := computeAllTopLevel (parseShardKeyPattern keyPattern)
  paths_eq := by
    unfold parseShardKeyPattern
    cases parsed : keyPattern.mapM (parsePatternEl keyPattern.length) with
    | none => simp
    | some paths =>
        rw [parseShardKeyPattern_eq_map parsed]
        by_cases empty : keyPattern = []
        · simp [empty]
        · simp [empty]
  allTopLevel_eq := rfl

/-- `ShardKeyPattern::isValid`. -/
def ShardKeyPattern.isValid (pattern : ShardKeyPattern) : Bool :=
  !pattern.keyPattern.isEmpty

section Extraction

variable (hash64 : Value → Int64) (scopeOkForStorage : List UInt8 → Bool)

/-- The body of the loops of both extractions: the key element appended for a pattern element
and the element found for it, or none where the source returns `BSONObj()`. A hashed pattern
appends the hash as a long; otherwise the value is appended under the pattern's field name. -/
def keyElement (patternEl : BSONElement) (matchEl : Option BSONElement) : Option BSONElement :=
  match matchEl with
  | some (_, value) =>
      if isShardKeyElement scopeOkForStorage matchEl true then
        some (if isHashedPatternEl patternEl then (patternEl.1, .scalar (.numberLong (hash64 value)))
          else (patternEl.1, value))
      else none
  | none => none

/-- The loop of both extractions over the pattern elements, each with the element found for it:
the key built, or none at the first element that cannot be a shard key. -/
def buildShardKey : List (BSONElement × Option BSONElement) → Option BSONObj
  | [] => some []
  | (patternEl, matchEl) :: rest => do
      let element ← keyElement hash64 scopeOkForStorage patternEl matchEl
      let more ← buildShardKey rest
      pure (element :: more)

/-- `extractKeyElementFromMatchable`: the first element an `ElementPath` with both array
traversals off yields, EOO when it yields none. -/
def extractKeyElementFromMatchable (doc : BSONObj) (pathStr : String) : Option BSONElement :=
  let path : ElementPath :=
    { ElementPath.init pathStr with shouldTraverseNonleafArrays := false, shouldTraverseLeafArray := false }
  match path.begin doc with
  | .found element => element
  | .exhausted => none
  -- unreachable with both traversals off (`ElementPath.begin_ne_inArray`)
  | .inArray _ _ => none

/-- `ShardKeyPattern::extractShardKeyFromMatchable` of a `BSONMatchableDocument`. -/
def ShardKeyPattern.extractShardKeyFromMatchable (pattern : ShardKeyPattern) (doc : BSONObj) :
    BSONObj :=
  if !pattern.isValid then []
  else
    (buildShardKey hash64 scopeOkForStorage
      (pattern.keyPattern.map fun patternEl =>
        (patternEl, extractKeyElementFromMatchable doc patternEl.1))).getD []

/-- `ShardKeyPattern::extractShardKeyFromDoc`: when every path has one part, the fast path
walks the paths and the pattern elements together and looks each field up with
`doc[fieldName]`, `fieldName` the path's `dottedField()`. -/
def ShardKeyPattern.extractShardKeyFromDoc (pattern : ShardKeyPattern) (doc : BSONObj) :
    BSONObj :=
  if !pattern.isValid then []
  else if pattern.allTopLevel then
    (buildShardKey hash64 scopeOkForStorage
      ((pattern.keyPatternPaths.zip pattern.keyPattern).map fun (path, patternEl) =>
        (patternEl, doc.getField (path.dottedField 0)))).getD []
  else pattern.extractShardKeyFromMatchable hash64 scopeOkForStorage doc

end Extraction

/-- On a field name of one part, the matchable lookup is `getField`. -/
theorem extractKeyElementFromMatchable_single {doc : BSONObj} {name part : String}
    (single : (FieldRef.parse name).parts = [part]) :
    extractKeyElementFromMatchable doc name = doc.getField name := by
  have leaf : ElementPath.begin
      { ElementPath.init name with shouldTraverseNonleafArrays := false, shouldTraverseLeafArray := false }
      doc = .found (doc.getField part) := ElementPath.begin_single doc single rfl
  rw [FieldRef.parse_single single] at leaf
  simp only [extractKeyElementFromMatchable, leaf]

/-- In the fast path each path's `dottedField()` is its pattern element's field name, and the
lookup of that name through the matcher is `getField`. -/
theorem fastPath_lookups {pattern : ShardKeyPattern} (doc : BSONObj)
    (allTopLevel : pattern.allTopLevel = true) :
    ((pattern.keyPatternPaths.zip pattern.keyPattern).map fun (path, patternEl) =>
        (patternEl, doc.getField (path.dottedField 0))) =
      pattern.keyPattern.map fun patternEl =>
        (patternEl, extractKeyElementFromMatchable doc patternEl.1) := by
  have onePart : ∀ patternEl ∈ pattern.keyPattern, (FieldRef.parse patternEl.1).numParts = 1 := by
    rw [pattern.allTopLevel_eq, computeAllTopLevel, pattern.paths_eq, Bool.and_eq_true] at allTopLevel
    simpa using allTopLevel.1
  have zipped : ∀ (l : BSONObj) (f : BSONElement → FieldRef), (l.map f).zip l = l.map fun a => (f a, a) :=
    fun l f => by induction l <;> simp_all
  rw [pattern.paths_eq, zipped, List.map_map]
  apply List.map_congr_left
  intro patternEl member
  obtain ⟨part, single⟩ : ∃ part, (FieldRef.parse patternEl.1).parts = [part] :=
    List.length_eq_one_iff.mp (onePart patternEl member)
  have named : (FieldRef.parse patternEl.1).dottedField 0 = patternEl.1 :=
    FieldRef.dottedField_zero (by rw [onePart patternEl member]; omega)
  simp [named, extractKeyElementFromMatchable_single single]

theorem extractShardKeyFromDoc_eq_matchable (hash64 : Value → Int64)
    (scopeOkForStorage : List UInt8 → Bool) (pattern : ShardKeyPattern) (doc : BSONObj) :
    pattern.extractShardKeyFromDoc hash64 scopeOkForStorage doc =
      pattern.extractShardKeyFromMatchable hash64 scopeOkForStorage doc := by
  unfold ShardKeyPattern.extractShardKeyFromDoc
  split
  · -- an invalid pattern: both give the empty object
    simp_all [ShardKeyPattern.extractShardKeyFromMatchable]
  · split
    · rename_i valid allTopLevel
      rw [ShardKeyPattern.extractShardKeyFromMatchable, if_neg valid, fastPath_lookups doc allTopLevel]
    · rfl

example : (ShardKeyPattern.make [("a", .scalar (.numberInt 1)), ("b", .scalar (.numberLong 1))]).extractShardKeyFromDoc
    (fun _ => 0) (fun _ => true)
    [("b", .scalar (.numberInt 6)), ("a", .scalar (.numberInt 5)), ("a", .scalar (.numberInt 7))] =
    [("a", .scalar (.numberInt 5)), ("b", .scalar (.numberInt 6))] := by decide

example : (ShardKeyPattern.make [("a", .scalar (.string "hashed"))]).extractShardKeyFromMatchable
    (fun _ => 42) (fun _ => true) [("a", .object [("$x", .scalar (.string "c"))])] = [] := by decide

end FastMongo.Sharding

import FastMongo.Index.FieldPath
import FastMongo.Base.Status

/-!
`BtreeKeyGeneratorV1` of `btree_key_generator.cpp`: what its constructor computes from the key
pattern, and `getKeysImplWithArray`, the recursive key generation that expands at most one
array per level, with positional paths, multikey paths and the errors for parallel arrays and
ambiguous positional fields. The index key set is the sequence of inserted keys; the collator's
translation of a key element and `BSONObj::toString` are inputs.
-/

namespace FastMongo.Index

open FastMongo.Bson

/-- An index key: the values of its fields, each named "". -/
abbrev Key := List Value

/-- `MultikeyPaths`: for each indexed field, the components of its path whose array values make
the index multikey. -/
abbrev MultikeyPaths := List (List Nat)

/-- What key generation writes through its out-parameters: the keys inserted, in order, and the
multikey paths when the caller passed a vector for them. -/
structure KeyOutput where
  keys : List Key
  multikeyPaths : Option MultikeyPaths
  deriving DecidableEq, Repr

/-- What key generation takes from outside the generator: `collationAwareIndexKeyAppend` with the
generator's collator, which may refuse an element, and `BSONObj::toString` for error 16746. -/
structure KeyContext where
  appendKey : Value → Except Status Value
  objToString : BSONObj → String

/-- `computeCacheSlot`: the 32-bit `hash * 31 + byte` hash of the name, truncated to a byte. -/
def computeCacheSlot (name : String) : UInt8 :=
  ((utf8 name).foldl (fun hash byte => hash * 31 + byte.toUInt32) (0 : UInt32)).toUInt8

/-- `SimpleFieldInfo`: a field of the key pattern without a dot. -/
structure SimpleFieldInfo where
  fieldIndex : Nat
  nameLen : Nat
  name : String
  cacheSlot : UInt8
  deriving DecidableEq, Repr

/-- `NestedFieldSuffix`: a dotted field and what follows its first dot. -/
structure NestedFieldSuffix where
  fieldIndex : Nat
  suffix : List Char
  deriving DecidableEq, Repr

/-- `PrefixGroup`: the dotted fields that share the piece before their first dot. -/
structure PrefixGroup where
  prefixPath : List Char
  fields : List NestedFieldSuffix
  deriving DecidableEq, Repr

/-- The state of `BtreeKeyGeneratorV1` after its constructor. -/
structure BtreeKeyGeneratorV1 where
  fieldNames : List (List Char)
  isIdIndex : Bool
  isSparse : Bool
  pathLengths : List Nat
  simpleFields : List SimpleFieldInfo
  simpleLengthBitmap : UInt64
  prefixGroups : List PrefixGroup
  deriving DecidableEq, Repr

/-- `tempPrefixGroups[prefix].push_back(entry)` on a `std::map` kept in key order. -/
def insertPrefixGroup (key : List Char) (entry : NestedFieldSuffix) :
    List (List Char × List NestedFieldSuffix) → List (List Char × List NestedFieldSuffix)
  | [] => [(key, [entry])]
  | (other, entries) :: rest =>
      if key = other then (other, entries ++ [entry]) :: rest
      else if String.ofList key < String.ofList other then (key, [entry]) :: (other, entries) :: rest
      else (other, entries) :: insertPrefixGroup key entry rest

/-- What the constructor loop collects: the simple fields, the length bitmap and the groups of
dotted fields by their first piece. -/
structure PatternScan where
  simpleFields : List SimpleFieldInfo
  simpleLengthBitmap : UInt64
  tempPrefixGroups : List (List Char × List NestedFieldSuffix)

/-- One field of the constructor loop. -/
def PatternScan.add (scan : PatternScan) (i : Nat) (fieldName : List Char) : PatternScan :=
  match splitAtDot fieldName with
  | none =>
      let name := String.ofList fieldName
      let len := (utf8 name).length
      { scan with
        simpleFields := scan.simpleFields ++ [⟨i, len, name, computeCacheSlot name⟩]
        simpleLengthBitmap := scan.simpleLengthBitmap ||| ((1 : UInt64) <<< (len % 64).toUInt64) }
  | some (prefixPath, suffix) =>
      { scan with tempPrefixGroups := insertPrefixGroup prefixPath ⟨i, suffix⟩ scan.tempPrefixGroups }

/-- The constructor loop over the fields from index `i` on. -/
def scanPattern : Nat → List (List Char) → PatternScan → PatternScan
  | _, [], scan => scan
  | i, fieldName :: rest, scan => scanPattern (i + 1) rest (scan.add i fieldName)

/-- The field names of a btree key pattern. The constructor asserts that every field has a
part, `invariant(pathLength > 0)`, so no field name is empty. -/
structure KeyPattern where
  fieldNames : List String
  nonempty : ∀ name ∈ fieldNames, name ≠ ""

/-- The constructors of `BtreeKeyGenerator` and `BtreeKeyGeneratorV1`: only prefix groups of more
than one field are kept. -/
def BtreeKeyGeneratorV1.make (pattern : KeyPattern) (isSparse : Bool) : BtreeKeyGeneratorV1 :=
  let paths := pattern.fieldNames.map String.toList
  let scan := scanPattern 0 paths ⟨[], 0, []⟩
  { fieldNames := paths
    isIdIndex := pattern.fieldNames == ["_id"]
    isSparse := isSparse
    pathLengths := paths.map numParts
    simpleFields := scan.simpleFields
    simpleLengthBitmap := scan.simpleLengthBitmap
    prefixGroups := (scan.tempPrefixGroups.filter fun group => group.2.length > 1).map
      fun group => ⟨group.1, group.2⟩ }

/-- `_nullKey`: a null for every field. -/
def BtreeKeyGeneratorV1.nullKey (gen : BtreeKeyGeneratorV1) : Key :=
  gen.fieldNames.map fun _ => Value.null

/-- `PositionalPathInfo`: the array element a positional path piece selects, the array, and
the element the rest of the path reaches from the array. -/
structure PositionalPathInfo where
  positionallyIndexedElt : Option Located
  arrayObj : BSONObj
  dottedElt : Option Located
  remainingPath : List Char
  deriving DecidableEq, Repr

/-- `PositionalPathInfo()`: no positionally indexed element. -/
def PositionalPathInfo.empty : PositionalPathInfo := ⟨none, [], none, []⟩

/-- `_emptyPositionalInfo`. -/
def BtreeKeyGeneratorV1.emptyPositionalInfo (gen : BtreeKeyGeneratorV1) : List PositionalPathInfo :=
  gen.fieldNames.map fun _ => .empty

/-- `assertParallelArrays`. -/
def parallelArrays (first second : String) : Status :=
  ⟨.cannotIndexParallelArrays, "cannot index parallel arrays [" ++ first ++ "] [" ++ second ++ "]"⟩

/-- `extractNextElement`: the element the field reaches in `obj`, or through the positionally
indexed element, with the rest of the path and whether that element is a nested array. -/
def extractNextElement (ctx : KeyContext) (obj : Embedded) (positionalInfo : PositionalPathInfo)
    (field : List Char) : Except Status (Option Located × List Char × Bool) :=
  let haveObjField := (obj.getField (String.ofList (beforeDot field))).isSome
  match haveObjField, positionalInfo.positionallyIndexedElt with
  | true, some arrField =>
      .error ⟨.location 16746,
        "Ambiguous field name found in array (do not use numeric field names in " ++
          "embedded elements in an array), field: '" ++ arrField.name ++ "' for array: " ++
          ctx.objToString positionalInfo.arrayObj⟩
  | true, none =>
      let (e, rest) := extractElementAtPathOrArrayAlongPath obj field
      .ok (e, rest, false)
  | false, some arrField =>
      .ok (positionalInfo.dottedElt, positionalInfo.remainingPath, arrField.value.type == .array)
  | false, none => .ok (none, field, false)

/-- The state of the first loop of `getKeysImplWithArray`. -/
structure ArrayScan where
  fieldNames : List (List Char)
  fixed : List (Option Value)
  numNotFound : Nat
  arrElt : Option Located
  arrIdxs : List Nat
  mayExpandArrayUnembedded : Bool
  deriving DecidableEq, Repr

/-- The first loop of `getKeysImplWithArray` at field `i`: a missing field becomes null, an
array joins the single array path, anything else is fixed. -/
def scanField (ctx : KeyContext) (obj : Embedded) (positionalInfo : List PositionalPathInfo)
    (scan : ArrayScan) (i : Nat) : Except Status ArrayScan :=
  let field := scan.fieldNames.getD i []
  if field.isEmpty then .ok scan
  else
    match extractNextElement ctx obj (positionalInfo.getD i .empty) field with
    | .error status => .error status
    | .ok (none, _, _) =>
        .ok { scan with
          fixed := scan.fixed.set i (some Value.null)
          fieldNames := scan.fieldNames.set i []
          numNotFound := scan.numNotFound + 1 }
    | .ok (some e, rest, arrayNestedArray) =>
        let scan := { scan with fieldNames := scan.fieldNames.set i rest }
        if e.value.type == .array then
          let scan := { scan with
            arrIdxs := scan.arrIdxs ++ [i]
            mayExpandArrayUnembedded := scan.mayExpandArrayUnembedded && !arrayNestedArray }
          match scan.arrElt with
          | none => .ok { scan with arrElt := some e }
          | some arrElt =>
              if e.offset ≠ arrElt.offset then .error (parallelArrays e.name arrElt.name)
              else .ok scan
        else .ok { scan with fixed := scan.fixed.set i (some e.value) }

/-- `BSONObjBuilder::appendAs` of each fixed element through the collator; an EOO element fails
the builder's `verify`. -/
def buildKey (ctx : KeyContext) (fixed : List (Option Value)) : Except Status Key :=
  fixed.mapM fun e =>
    match e with
    | some value => ctx.appendKey value
    | none => .error ⟨.location 0, "assertion src/mongo/bson/bsonobjbuilder.h:154"⟩

/-- The subpositional information of `getKeysImplWithArray` for field `i` when `arrElt` is
expanded, and the path component that makes the index multikey through it, if any. -/
def subPositional (gen : BtreeKeyGeneratorV1) (arrObj : Embedded) (scan : ArrayScan)
    (i : Nat) : PositionalPathInfo × Option Nat :=
  let field := scan.fieldNames.getD i []
  let fieldIsArray := i ∈ scan.arrIdxs
  if field.isEmpty then
    (.empty, if fieldIsArray && scan.mayExpandArrayUnembedded then
      some (gen.pathLengths.getD i 0 - 1) else none)
  else
    match arrObj.getField (String.ofList (beforeDot field)) with
    | none => (.empty, some (gen.pathLengths.getD i 0 - numParts field - 1))
    | some positional =>
        let (dottedElt, remainingPath) := extractElementAtPathOrArrayAlongPath arrObj field
        (⟨some positional, arrObj.fields, dottedElt, remainingPath⟩, none)

/-- `_getKeysArrEltFixed` before its recursive call: every field that ends at the array takes
the array entry, or the whole array when it may not be expanded. -/
def setArrayEntries (fieldNames : List (List Char)) (arrIdxs : List Nat) (entry : Value)
    (fixed : List (Option Value)) : List (Option Value) :=
  arrIdxs.foldl (fun fixed idx =>
    if (fieldNames.getD idx []).isEmpty then fixed.set idx (some entry) else fixed) fixed

/-- `std::set::insert` on one field's multikey components. -/
def insertComponent (components : List (List Nat)) (i component : Nat) : List (List Nat) :=
  components.modify i fun set => if component ∈ set then set else set ++ [component]

/-- The keys of one level once its fields are scanned: one key when no array was met, else the
keys of every entry of the array, each through `recurse`, the recursive call of
`_getKeysArrEltFixed`. -/
def expandArray (gen : BtreeKeyGeneratorV1) (ctx : KeyContext)
    (recurse : List (List Char) → List (Option Value) → Embedded → Nat →
      List PositionalPathInfo → KeyOutput → Except Status KeyOutput)
    (scan : ArrayScan) (out : KeyOutput) : Except Status KeyOutput :=
  match scan.arrElt with
  | none =>
      if gen.isSparse && scan.numNotFound == scan.fieldNames.length then .ok out
      else
        match buildKey ctx scan.fixed with
        | .error status => .error status
        | .ok key => .ok { out with keys := out.keys ++ [key] }
  | some arrElt =>
      let items := match arrElt.value with
        | .array items => items
        | _ => []
      let arrObj := arrElt.embedded items
      if items.isEmpty then
        -- an empty array: the fields that end at it index undefined
        recurse scan.fieldNames
          (setArrayEntries scan.fieldNames scan.arrIdxs Value.undefined scan.fixed) ⟨[], 0⟩
          scan.numNotFound gen.emptyPositionalInfo out
      else
        let subs := (List.range scan.fieldNames.length).map (subPositional gen arrObj scan)
        let subPositionalInfo := subs.map Prod.fst
        let step : List (Option Value) × KeyOutput → Located →
            Except Status (List (Option Value) × KeyOutput) := fun (fixed, out) entry =>
          let fixed := setArrayEntries scan.fieldNames scan.arrIdxs
            (if scan.mayExpandArrayUnembedded then entry.value else arrElt.value) fixed
          let entryObj := match entry.value with
            | .object fields => entry.embedded fields
            | _ => ⟨[], 0⟩
          match recurse scan.fieldNames fixed entryObj scan.numNotFound subPositionalInfo out with
          | .error status => .error status
          | .ok out => .ok (fixed, out)
        match arrObj.elements.foldlM step (scan.fixed, out) with
        | .error status => .error status
        | .ok (_, out) =>
            -- an array of more than one entry makes the index multikey
            if items.length > 1 then
              .ok { out with
                multikeyPaths := out.multikeyPaths.map fun paths =>
                  (List.range subs.length).foldl (fun paths i =>
                    match (subs.getD i (.empty, none)).2 with
                    | some component => insertComponent paths i component
                    | none => paths) paths }
            else .ok out

/-- `getKeysImplWithArray` with `fuel` levels of arrays left. -/
def getKeysImplWithArray (gen : BtreeKeyGeneratorV1) (ctx : KeyContext) :
    Nat → List (List Char) → List (Option Value) → Embedded → Nat → List PositionalPathInfo →
      KeyOutput → Except Status KeyOutput
  | 0, _, _, _, _, _, out => .ok out
  | fuel + 1, fieldNames, fixed, obj, numNotFound, positionalInfo, out =>
      match (List.range fieldNames.length).foldlM (scanField ctx obj positionalInfo)
          ⟨fieldNames, fixed, numNotFound, none, [], true⟩ with
      | .error status => .error status
      | .ok scan => expandArray gen ctx (getKeysImplWithArray gen ctx fuel) scan out

/-- Levels of arrays enough for any document: each level expands an array nested in the one
expanded before it. -/
def keyFuel (obj : BSONObj) : Nat := obj.objsize + 1

/-- The `_id` index keys: `obj["_id"]` through the collator, or the null key. -/
def idIndexKeys (gen : BtreeKeyGeneratorV1) (ctx : KeyContext) (obj : BSONObj)
    (multikeyPaths : Option MultikeyPaths) : Except Status KeyOutput :=
  let paths := multikeyPaths.map fun _ => [[]]
  match BSONObj.getField obj "_id" with
  | none => .ok ⟨[gen.nullKey], paths⟩
  | some (_, value) =>
      match ctx.appendKey value with
      | .error status => .error status
      | .ok key => .ok ⟨[[key]], paths⟩

/-- The multikey paths handed to `getKeysImplWithArray`: one empty set per field. -/
def BtreeKeyGeneratorV1.resizedPaths (gen : BtreeKeyGeneratorV1)
    (multikeyPaths : Option MultikeyPaths) : Option MultikeyPaths :=
  multikeyPaths.map fun _ => gen.fieldNames.map fun _ => []

/-- The reference `getKeysImpl`: `getKeysImplWithArray` on the untouched field names, with no
prefill and no cache. -/
def getKeysImplReference (gen : BtreeKeyGeneratorV1) (ctx : KeyContext) (obj : BSONObj)
    (multikeyPaths : Option MultikeyPaths) : Except Status KeyOutput :=
  if gen.isIdIndex then idIndexKeys gen ctx obj multikeyPaths
  else
    getKeysImplWithArray gen ctx (keyFuel obj) gen.fieldNames (gen.fieldNames.map fun _ => none)
      ⟨obj, 0⟩ 0 gen.emptyPositionalInfo ⟨[], gen.resizedPaths multikeyPaths⟩

/-- `BtreeKeyGenerator::getKeys` around a `getKeysImpl`: a document with no key gets the null
key unless the index is sparse. -/
def withNullKey (gen : BtreeKeyGeneratorV1) (result : Except Status KeyOutput) :
    Except Status KeyOutput :=
  match result with
  | .error status => .error status
  | .ok out => .ok (if out.keys.isEmpty && !gen.isSparse then { out with keys := [gen.nullKey] } else out)

/-- The reference `getKeys`. -/
def getKeysReference (gen : BtreeKeyGeneratorV1) (ctx : KeyContext) (obj : BSONObj)
    (multikeyPaths : Option MultikeyPaths) : Except Status KeyOutput :=
  withNullKey gen (getKeysImplReference gen ctx obj multikeyPaths)

end FastMongo.Index

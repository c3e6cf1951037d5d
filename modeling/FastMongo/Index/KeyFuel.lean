import FastMongo.Index.KeyGenerator
import FastMongo.Lib.Reachability

/-!
`keyFuel` is enough fuel for `getKeysImplWithArray`. A level reads the elements of its document
and the elements that positional paths reached in the array of the level above; an array it
expands is one of them. The next level reads an entry of that array and elements inside it, all
with fewer bytes. So the bytes of the indexed document bound the levels, and any fuel beyond
them gives the same result.
-/

namespace FastMongo.Index

open FastMongo.Bson

/-- An element of a document has fewer value bytes than the document's elements. -/
theorem bytes_lt_elementsBytes {fields : BSONObj} {name : String} {value : Value}
    (member : (name, value) ∈ fields) : value.bytes.length < (elementsBytes fields).length := by
  induction fields with
  | nil => cases member
  | cons element rest ih =>
      rcases List.mem_cons.mp member with first | later
      · subst first
        simp [elementBytes]
        omega
      · have inside := ih later
        simp only [elementsBytes_cons, List.length_append]
        omega

/-- The element `getField` finds lies in the document. -/
theorem bytes_lt_of_getField {obj : Embedded} {name : String} {e : Located}
    (found : obj.getField name = some e) : e.value.bytes.length < (elementsBytes obj.fields).length :=
  bytes_lt_elementsBytes (mem_locateFrom (List.mem_of_find?_eq_some found))

/-- The element a path reaches lies in the document the path starts from. -/
theorem bytes_lt_of_extractAlongPath :
    ∀ (fuel : Nat) (obj : Embedded) (path : List Char) {e : Located} {rest : List Char},
      extractAlongPath fuel obj path = (some e, rest) →
        e.value.bytes.length < (elementsBytes obj.fields).length
  | 0, _, _, _, _, reached => by cases reached
  | fuel + 1, obj, path, e, rest, reached => by
      simp only [extractAlongPath] at reached
      rcases looked : lookupPiece obj path with ⟨_ | sub, after⟩
      · rw [looked] at reached
        cases reached
      · have found : obj.getField (String.ofList (beforeDot path)) = some sub := by
          rw [← lookupPiece_fst, looked]
        have subInside := bytes_lt_of_getField found
        rw [looked] at reached
        simp only at reached
        split at reached
        · cases reached
          exact subInside
        · split at reached
          · -- the path goes on into a document held by `sub`
            rename_i fields isObject
            have deeper := bytes_lt_of_extractAlongPath fuel _ after reached
            rw [isObject, Value.bytes_object, length_frame] at subInside
            simp only [Located.embedded] at deeper
            omega
          · cases reached

/-- What one level of `getKeysImplWithArray` reads has fewer than `n` value bytes: the elements of
its document, and every element that a positional path reached in the array of the level above. -/
structure LevelWithin (n : Nat) (obj : Embedded) (positionalInfo : List PositionalPathInfo) : Prop where
  fields : (elementsBytes obj.fields).length < n
  dotted : ∀ info ∈ positionalInfo, ∀ e ∈ info.dottedElt, e.value.bytes.length < n

theorem LevelWithin.mono {n m : Nat} {obj : Embedded} {positionalInfo : List PositionalPathInfo}
    (within : LevelWithin n obj positionalInfo) (le : n ≤ m) : LevelWithin m obj positionalInfo :=
  ⟨Nat.lt_of_lt_of_le within.fields le, fun info member e dotted =>
    Nat.lt_of_lt_of_le (within.dotted info member e dotted) le⟩

/-- A level with no positional path pending is within any bound above its document's bytes. -/
theorem LevelWithin.top (gen : BtreeKeyGeneratorV1) {n : Nat} {obj : Embedded}
    (fields : (elementsBytes obj.fields).length < n) : LevelWithin n obj gen.emptyPositionalInfo := by
  refine ⟨fields, ?_⟩
  intro info inside e dotted
  simp only [BtreeKeyGeneratorV1.emptyPositionalInfo, List.mem_map] at inside
  obtain ⟨_, _, rfl⟩ := inside
  cases dotted

theorem LevelWithin.getD {n : Nat} {obj : Embedded} {positionalInfo : List PositionalPathInfo}
    (within : LevelWithin n obj positionalInfo) (i : Nat) :
    ∀ e ∈ (positionalInfo.getD i .empty).dottedElt, e.value.bytes.length < n := by
  rw [List.getD_eq_getElem?_getD]
  cases found : positionalInfo[i]? with
  | none => intro e member; cases member
  | some info => exact within.dotted info (List.mem_of_getElem? found)

/-- The element `extractNextElement` reads lies within the level. -/
theorem extractNextElement_within {n : Nat} (ctx : KeyContext) {obj : Embedded}
    {positionalInfo : List PositionalPathInfo} (within : LevelWithin n obj positionalInfo) (i : Nat)
    (field : List Char) {e : Located} {rest : List Char} {nested : Bool}
    (read : extractNextElement ctx obj (positionalInfo.getD i .empty) field = .ok (some e, rest, nested)) :
    e.value.bytes.length < n := by
  cases reached : extractElementAtPathOrArrayAlongPath obj field with
  | mk found after =>
    simp only [extractNextElement, reached] at read
    split at read
    · cases read
    · -- a path of the level's document
      simp only [Except.ok.injEq, Prod.mk.injEq] at read
      rw [read.1] at reached
      exact Nat.lt_of_lt_of_le (bytes_lt_of_extractAlongPath _ obj field reached)
        (Nat.le_of_lt within.fields)
    · -- the element a positional path reached in the array above
      simp only [Except.ok.injEq, Prod.mk.injEq] at read
      exact within.getD i e read.1
    · cases read

/-- The array the first loop has picked, if any, is an array within the bound. -/
def ArrayScan.ArrayWithin (n : Nat) (scan : ArrayScan) : Prop :=
  ∀ e ∈ scan.arrElt, e.value.type = .array ∧ e.value.bytes.length < n

/-- One field of the first loop picks only an array of the level. -/
theorem scanField_arrayWithin {n : Nat} (ctx : KeyContext) {obj : Embedded}
    {positionalInfo : List PositionalPathInfo} (within : LevelWithin n obj positionalInfo)
    {scan scan' : ArrayScan} (i : Nat) (picked : scan.ArrayWithin n)
    (scanned : scanField ctx obj positionalInfo scan i = .ok scan') : scan'.ArrayWithin n := by
  unfold scanField at scanned
  dsimp only at scanned
  split at scanned
  · cases scanned
    exact picked
  · split at scanned
    · cases scanned
    · cases scanned
      exact picked
    · rename_i e rest nested read
      have small := extractNextElement_within ctx within i _ read
      split at scanned
      · rename_i isArray
        split at scanned
        · -- the first array of the level
          cases scanned
          intro picked' member
          cases member
          exact ⟨by simpa using isArray, small⟩
        · split at scanned
          · cases scanned
          · cases scanned
            exact picked
      · cases scanned
        exact picked

/-- The whole first loop picks only an array of the level. -/
theorem foldlM_scanField_arrayWithin {n : Nat} (ctx : KeyContext) {obj : Embedded}
    {positionalInfo : List PositionalPathInfo} (within : LevelWithin n obj positionalInfo)
    (fields : List Nat) {start scan : ArrayScan} (nothingPicked : start.arrElt = none)
    (scanned : fields.foldlM (scanField ctx obj positionalInfo) start = .ok scan) :
    scan.ArrayWithin n :=
  StepSystem.foldlM_invariant (fun _ scan => scan.ArrayWithin n) _
    (fun _ scan i _ picked stepped => scanField_arrayWithin ctx within i picked stepped) fields 0 start
    scan (fun e member => by rw [nothingPicked] at member; cases member) scanned

/-- A positional path started in an expanded array reaches an element of the array. -/
theorem subPositional_within (gen : BtreeKeyGeneratorV1) (arrObj : Embedded) (scan : ArrayScan)
    (i : Nat) : ∀ e ∈ (subPositional gen arrObj scan i).1.dottedElt,
      e.value.bytes.length < (elementsBytes arrObj.fields).length := by
  intro e member
  by_cases empty : (scan.fieldNames.getD i []).isEmpty = true
  · simp only [subPositional, empty, ↓reduceIte, PositionalPathInfo.empty] at member
    cases member
  · cases found : arrObj.getField (String.ofList (beforeDot (scan.fieldNames.getD i []))) with
    | none =>
        simp only [subPositional, empty, Bool.false_eq_true, ↓reduceIte, found,
          PositionalPathInfo.empty] at member
        cases member
    | some positional =>
        cases reached : extractElementAtPathOrArrayAlongPath arrObj (scan.fieldNames.getD i []) with
        | mk dotted after =>
            simp only [subPositional, empty, Bool.false_eq_true, ↓reduceIte, found, reached] at member
            cases member
            exact bytes_lt_of_extractAlongPath _ arrObj _ reached

/-- `expandArray` makes its recursive calls only on levels within the array it expands: the
document of one of its entries, and the elements positional paths reach in it. -/
theorem expandArray_congr (gen : BtreeKeyGeneratorV1) (ctx : KeyContext)
    (recurse recurse' : List (List Char) → List (Option Value) → Embedded → Nat →
      List PositionalPathInfo → KeyOutput → Except Status KeyOutput)
    (scan : ArrayScan) (out : KeyOutput) (isArray : ∀ e ∈ scan.arrElt, e.value.type = .array)
    (agree : ∀ e ∈ scan.arrElt, ∀ names fixed obj numNotFound positionalInfo out,
      LevelWithin e.value.bytes.length obj positionalInfo →
        recurse names fixed obj numNotFound positionalInfo out =
          recurse' names fixed obj numNotFound positionalInfo out) :
    expandArray gen ctx recurse scan out = expandArray gen ctx recurse' scan out := by
  unfold expandArray
  cases picked : scan.arrElt with
  | none => rfl
  | some arrElt =>
      have member : arrElt ∈ scan.arrElt := by rw [picked]; rfl
      obtain ⟨items, holds⟩ := Value.type_eq_array.mp (isArray arrElt member)
      have agreeHere := agree arrElt member
      rw [holds, Value.bytes_array, length_frame] at agreeHere
      simp only [holds]
      split
      · -- an empty array: the next level reads nothing
        exact agreeHere _ _ _ _ _ _ (LevelWithin.top gen (by simp))
      · rw [StepSystem.foldlM_congr _ _ _ ?_]
        intro acc entry entryMember
        have entryInside : entry.value.bytes.length < (elementsBytes items).length :=
          bytes_lt_elementsBytes (mem_locateFrom entryMember)
        rw [agreeHere]
        constructor
        · split
          · rename_i fields isObject
            rw [isObject, Value.bytes_object, length_frame] at entryInside
            simp only [Located.embedded]
            omega
          · simp
        · intro info inside e dotted
          simp only [List.map_map, List.mem_map, List.mem_range, Function.comp] at inside
          obtain ⟨i, _, rfl⟩ := inside
          have reached := subPositional_within gen (arrElt.embedded items) scan i e dotted
          simp only [Located.embedded] at reached
          omega

/-- `getKeysImplWithArray` gives the same result with any two fuels above the bytes its level
reads. The induction is on the fuel; each recursive call reads within the array it expands, which
has fewer bytes than the level above. -/
theorem getKeysImplWithArray_fuel_eq (gen : BtreeKeyGeneratorV1) (ctx : KeyContext) :
    ∀ (fuel fuel' : Nat) (names : List (List Char)) (fixed : List (Option Value)) (obj : Embedded)
      (numNotFound : Nat) (positionalInfo : List PositionalPathInfo) (out : KeyOutput),
      LevelWithin fuel obj positionalInfo → LevelWithin fuel' obj positionalInfo →
        getKeysImplWithArray gen ctx fuel names fixed obj numNotFound positionalInfo out =
          getKeysImplWithArray gen ctx fuel' names fixed obj numNotFound positionalInfo out
  | 0, _, _, _, _, _, _, _, within, _ => absurd within.fields (Nat.not_lt_zero _)
  | _ + 1, 0, _, _, _, _, _, _, _, within' => absurd within'.fields (Nat.not_lt_zero _)
  | fuel + 1, fuel' + 1, names, fixed, obj, numNotFound, positionalInfo, out, within, within' => by
      simp only [getKeysImplWithArray]
      cases scanned : (List.range names.length).foldlM (scanField ctx obj positionalInfo)
          ⟨names, fixed, numNotFound, none, [], true⟩ with
      | error status => rfl
      | ok scan =>
          have picked := foldlM_scanField_arrayWithin ctx within _ rfl scanned
          have picked' := foldlM_scanField_arrayWithin ctx within' _ rfl scanned
          apply expandArray_congr gen ctx _ _ scan out fun e member => (picked e member).1
          intro e member names fixed obj numNotFound positionalInfo out level
          have small := (picked e member).2
          have small' := (picked' e member).2
          exact getKeysImplWithArray_fuel_eq gen ctx fuel fuel' names fixed obj numNotFound
            positionalInfo out (level.mono (by omega)) (level.mono (by omega))

/-- `keyFuel` never runs out: at the top of a document, any more fuel gives the same keys, multikey
paths and errors. -/
theorem getKeysImplWithArray_keyFuel (gen : BtreeKeyGeneratorV1) (ctx : KeyContext) (obj : BSONObj)
    (names : List (List Char)) (fixed : List (Option Value)) (numNotFound : Nat) (out : KeyOutput)
    {fuel : Nat} (enough : keyFuel obj ≤ fuel) :
    getKeysImplWithArray gen ctx fuel names fixed ⟨obj, 0⟩ numNotFound gen.emptyPositionalInfo out =
      getKeysImplWithArray gen ctx (keyFuel obj) names fixed ⟨obj, 0⟩ numNotFound
        gen.emptyPositionalInfo out := by
  have top : LevelWithin (keyFuel obj) ⟨obj, 0⟩ gen.emptyPositionalInfo :=
    LevelWithin.top gen (by simp only [keyFuel, objsize_eq]; omega)
  exact getKeysImplWithArray_fuel_eq gen ctx fuel (keyFuel obj) names fixed ⟨obj, 0⟩ numNotFound
    gen.emptyPositionalInfo out (top.mono enough) top

end FastMongo.Index

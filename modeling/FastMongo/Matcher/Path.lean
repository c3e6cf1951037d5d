import Mathlib
import FastMongo.Bson.Value

/-!
Paths of the matcher: `FieldRef` of `field_ref.cpp`, `getFieldDottedOrArray` of
`path_internal.cpp` and the first call of `BSONElementIterator::more` in `path.cpp`, the one that
starts from `BEGIN`. An EOO element is `none`. The array traversal that `IN_ARRAY` goes on with
is not followed: the one caller modelled here, the shard key extraction, turns both kinds of
array traversal off, and then `BEGIN` never hands over to it.
-/

namespace FastMongo.Matcher

open FastMongo.Bson

/-- The loop of `FieldRef::parse`: the characters of the part read so far, reversed, and the
rest of the path. Every dot ends a part, so two dots in a row or a dot at either end give an
empty part. -/
def splitParts : List Char → List Char → List (List Char)
  | part, [] => [part.reverse]
  | part, c :: rest => if c = '.' then part.reverse :: splitParts [] rest else splitParts (c :: part) rest

/-- A parsed path: the dotted string it was parsed from and its parts. -/
structure FieldRef where
  dotted : String
  parts : List String
  deriving DecidableEq, Repr

/-- `FieldRef::parse`: the empty path has no parts. -/
def FieldRef.parse (path : String) : FieldRef :=
  if path.isEmpty then ⟨"", []⟩
  else ⟨path, (splitParts [] path.toList).map String.ofList⟩

/-- `FieldRef::numParts`. -/
def FieldRef.numParts (ref : FieldRef) : Nat :=
  ref.parts.length

/-- `FieldRef::getPart`. -/
def FieldRef.getPart (ref : FieldRef) (i : Nat) : String :=
  ref.parts.getD i ""

/-- `FieldRef::dottedField(offset)`, which is `dottedSubstring(offset, numParts())`: the whole
path for offset zero, otherwise the dotted string from the first character of part `offset`;
the source's end index overshoots by the last dot and `substr` clips it. -/
def FieldRef.dottedField (ref : FieldRef) (offset : Nat) : String :=
  if ref.numParts = 0 ∨ offset ≥ ref.numParts then ""
  else if offset = 0 then ref.dotted
  else
    let startChar := ((ref.parts.take offset).map fun part => part.length + 1).sum
    String.ofList (ref.dotted.toList.drop startChar)

/-- The loop of `getFieldDottedOrArray` from part `partNum` on, `res` the element of the last
part looked up: an embedded document is entered, an array or a missing field stops the walk,
and any other value stops it too, as EOO unless it was the last part. -/
def walkParts (curr : BSONObj) (res : Option BSONElement) (partNum : Nat) :
    List String → Option BSONElement × Nat
  | [] => (res, partNum)
  | part :: rest =>
      match curr.getField part with
      | none => (none, partNum)
      | some (name, .object fields) => walkParts fields (some (name, .object fields)) (partNum + 1) rest
      | some (name, .array items) => (some (name, .array items), partNum)
      | some (name, .scalar value) => (if rest.isEmpty then some (name, .scalar value) else none, partNum)

/-- `getFieldDottedOrArray`: the element the path leads to, or the first array on the way, and
the index of the part where the walk stopped (`idxPath`). -/
def getFieldDottedOrArray (doc : BSONObj) (path : FieldRef) : Option BSONElement × Nat :=
  if path.numParts = 0 then (doc.getField "", 0)
  else walkParts doc none 0 path.parts

/-- `ElementPath`: the parsed path and whether arrays along it, and an array at its end, are
traversed. -/
structure ElementPath where
  fieldRef : FieldRef
  shouldTraverseNonleafArrays : Bool
  shouldTraverseLeafArray : Bool
  deriving DecidableEq, Repr

/-- `ElementPath::init`: both traversals are on. -/
def ElementPath.init (path : String) : ElementPath :=
  ⟨FieldRef.parse path, true, true⟩

/-- Where the first `BSONElementIterator::more` leaves the iterator. -/
inductive Begin where
  /-- `_next` is set to the element, EOO included, and the state is `DONE`: `more` is true. -/
  | found (element : Option BSONElement)
  /-- The state is `DONE` with nothing in `_next`: `more` is false. -/
  | exhausted
  /-- The state is `IN_ARRAY`, with the array and `restOfPath` of the array iteration state. -/
  | inArray (array : BSONElement) (restOfPath : String)
  deriving DecidableEq, Repr

/-- The `BEGIN` branch of `BSONElementIterator::more`: anything but an array is the one element
of the iteration. An array with more path after it is not entered unless non-leaf arrays are
traversed; an array at the end of the path is returned whole unless the leaf array is
traversed. -/
def ElementPath.begin (path : ElementPath) (context : BSONObj) : Begin :=
  match getFieldDottedOrArray context path.fieldRef with
  | (some (name, .array items), idxPath) =>
      -- `ArrayIterationState::reset(fieldRef, idxPath + 1)`
      let restOfPath := path.fieldRef.dottedField (idxPath + 1)
      let hasMore := !restOfPath.isEmpty
      if hasMore && !path.shouldTraverseNonleafArrays then .exhausted
      else if !hasMore && !path.shouldTraverseLeafArray then .found (some (name, .array items))
      else .inArray (name, .array items) restOfPath
  | (e, _) => .found e

/-- With both traversals off the iterator never enters an array. -/
theorem ElementPath.begin_ne_inArray {path : ElementPath} (context : BSONObj)
    (nonleaf : path.shouldTraverseNonleafArrays = false) (leaf : path.shouldTraverseLeafArray = false)
    (array : BSONElement) (restOfPath : String) : path.begin context ≠ .inArray array restOfPath := by
  unfold ElementPath.begin
  split
  · -- an array: with both flags off, whether the path goes on decides between the first two
    -- branches
    rename_i name items idxPath _
    by_cases more : path.fieldRef.dottedField (idxPath + 1) = "" <;> simp [nonleaf, leaf, more]
  · simp

theorem splitParts_ne_nil (part rest : List Char) : splitParts part rest ≠ [] := by
  induction rest generalizing part with
  | nil => simp [splitParts]
  | cons c rest ih =>
      unfold splitParts
      split
      · simp
      · exact ih _

/-- The parts of a path without a dot: the one part is the whole path. -/
theorem splitParts_eq_single {part rest : List Char} {only : List Char}
    (split : splitParts part rest = [only]) : only = part.reverse ++ rest := by
  induction rest generalizing part with
  | nil => simp_all [splitParts]
  | cons c rest ih =>
      by_cases dot : c = '.'
      · -- a dot ends the current part, and another part always follows it
        simp only [splitParts, dot, if_true, List.cons.injEq] at split
        exact absurd split.2 (splitParts_ne_nil [] rest)
      · simp only [splitParts, dot, if_false] at split
        simpa using ih split

theorem FieldRef.parse_single {path part : String}
    (single : (FieldRef.parse path).parts = [part]) : part = path := by
  unfold FieldRef.parse at single
  split at single
  · simp at single
  · obtain ⟨only, split, rfl⟩ : ∃ only, splitParts [] path.toList = [only] ∧
        String.ofList only = part := by
      simpa [List.map_eq_singleton_iff] using single
    rw [splitParts_eq_single split]
    simp

theorem FieldRef.dottedField_zero {path : String} (nonempty : (FieldRef.parse path).numParts ≠ 0) :
    (FieldRef.parse path).dottedField 0 = path := by
  unfold FieldRef.dottedField
  rw [if_neg (by omega), if_pos rfl]
  unfold FieldRef.parse at nonempty ⊢
  split
  · simp_all [FieldRef.numParts]
  · rfl

theorem FieldRef.dottedField_ge {ref : FieldRef} {offset : Nat} (past : ref.numParts ≤ offset) :
    ref.dottedField offset = "" := by
  simp [FieldRef.dottedField, past]

/-- A walk over a single part is `getField`. -/
theorem walkParts_single (doc : BSONObj) (part : String) :
    (walkParts doc none 0 [part]).1 = doc.getField part := by
  unfold walkParts
  split <;> simp_all [walkParts]

/-- On a path of one part, `getFieldDottedOrArray` stops at the element `getField` finds, or
after it when that is a document. -/
theorem getFieldDottedOrArray_single {doc : BSONObj} {path : FieldRef} {part : String}
    (single : path.parts = [part]) : (getFieldDottedOrArray doc path).1 = doc.getField part := by
  have oneSome : path.numParts ≠ 0 := by simp [FieldRef.numParts, single]
  simp only [getFieldDottedOrArray, oneSome, if_false, single]
  exact walkParts_single doc part

/-- With both traversals off, a path of one part yields the element `getField` finds: a
missing field gives EOO and an array is returned whole as the leaf array. -/
theorem ElementPath.begin_single {path : ElementPath} {part : String} (doc : BSONObj)
    (single : path.fieldRef.parts = [part]) (leaf : path.shouldTraverseLeafArray = false) :
    path.begin doc = .found (doc.getField part) := by
  have found : (getFieldDottedOrArray doc path.fieldRef).1 = doc.getField part :=
    getFieldDottedOrArray_single single
  -- whatever part the walk stopped at, nothing of the path is left after it
  have noRest : ∀ idxPath, path.fieldRef.dottedField (idxPath + 1) = "" :=
    fun idxPath => FieldRef.dottedField_ge (by simp [FieldRef.numParts, single])
  unfold ElementPath.begin
  split
  · rename_i name items idxPath result
    rw [result] at found
    simp only [noRest idxPath, leaf]
    simpa using found
  · rename_i e idxPath notArray result
    rw [result] at found
    rw [← found]

end FastMongo.Matcher

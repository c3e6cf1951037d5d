import FastMongo.Bson.Encode

/-!
Dotted paths into a document as `FieldRef` and `dotted_path_support.cpp` read them. A path is
the characters of its C string. Elements are located by the offset of their first byte from the
start of the indexed document, `rawdata() - objdata()`: the key generator tells two arrays
apart by it, and the field offset cache stores it.
-/

namespace FastMongo.Index

open FastMongo.Bson

/-- `strchr(path, '.')`: the characters before the first dot and those after it. -/
def splitAtDot : List Char → Option (List Char × List Char)
  | [] => none
  | c :: rest =>
      if c = '.' then some ([], rest)
      else (splitAtDot rest).map fun (before, after) => (c :: before, after)

/-- `mongoutils::str::before(path, '.')`. -/
def beforeDot (path : List Char) : List Char :=
  match splitAtDot path with
  | some (before, _) => before
  | none => path

/-- `FieldRef{path}.numParts()`: one part more than there are dots, none for the empty path. -/
def numParts (path : List Char) : Nat :=
  if path.isEmpty then 0 else path.count '.' + 1

/-- An element of the indexed document with the offset of its first byte. -/
structure Located where
  name : String
  value : Value
  offset : Nat
  deriving DecidableEq, Repr

/-- The elements of a document whose first element starts at `offset`, each located. -/
def locateFrom : Nat → BSONObj → List Located
  | _, [] => []
  | offset, (name, value) :: rest =>
      ⟨name, value, offset⟩ :: locateFrom (offset + (elementBytes (name, value)).length) rest

/-- A document inside the indexed one, with the offset of its int32 size. -/
structure Embedded where
  fields : BSONObj
  base : Nat
  deriving DecidableEq, Repr

/-- The located elements of an embedded document; the first follows its int32 size. -/
def Embedded.elements (obj : Embedded) : List Located :=
  locateFrom (obj.base + 4) obj.fields

/-- `BSONObj::getField`: the first element with the given name. -/
def Embedded.getField (obj : Embedded) (name : String) : Option Located :=
  obj.elements.find? fun e => e.name == name

/-- `BSONElement::embeddedObject()` of an element that holds a document or an array: its value
starts after the type byte and the field name. -/
def Located.embedded (e : Located) (fields : BSONObj) : Embedded :=
  ⟨fields, e.offset + 1 + (cstring e.name).length⟩

/-- The first step of a path traversal: the first element the path's first piece names and the
rest of the path after its dot, or the empty rest when the path has no dot. -/
def lookupPiece (obj : Embedded) (path : List Char) : Option Located × List Char :=
  match splitAtDot path with
  | some (piece, after) => (obj.getField (String.ofList piece), after)
  | none => (obj.getField (String.ofList path), [])

/-- `_extractElementAtPathOrArrayAlongPathImpl` with `fuel` pieces of the path left to read: the
element found, or none for EOO, and the rest of the path, which the source hands back through
its `path` argument. Traversal stops at an array. -/
def extractAlongPath : Nat → Embedded → List Char → Option Located × List Char
  | 0, _, path => (none, path)
  | fuel + 1, obj, path =>
      match lookupPiece obj path with
      | (none, path) => (none, path)
      | (some sub, path) =>
          if sub.value.type == .array || path.isEmpty then (some sub, path)
          else
            match sub.value with
            | .object fields => extractAlongPath fuel (sub.embedded fields) path
            | _ => (none, path)

/-- `extractElementAtPathOrArrayAlongPath`: every step reads at least one character of the
path, so its length bounds the steps. -/
def extractElementAtPathOrArrayAlongPath (obj : Embedded) (path : List Char) :
    Option Located × List Char :=
  extractAlongPath (path.length + 1) obj path

theorem splitAtDot_length {path before after : List Char}
    (split : splitAtDot path = some (before, after)) : after.length < path.length := by
  induction path generalizing before with
  | nil => cases split
  | cons c rest ih =>
      unfold splitAtDot at split
      split at split
      · simp only [Option.some.injEq, Prod.mk.injEq] at split
        rw [← split.2]
        simp
      · obtain ⟨⟨before', after'⟩, found, same⟩ := Option.map_eq_some_iff.mp split
        simp only [Prod.mk.injEq] at same
        have shorter := ih (same.2 ▸ found)
        simp only [List.length_cons]
        omega

/-- The rest of the path after one step is empty or shorter. -/
theorem lookupPiece_rest (obj : Embedded) (path : List Char) :
    (lookupPiece obj path).2 = [] ∨ (lookupPiece obj path).2.length < path.length := by
  unfold lookupPiece
  split
  · rename_i piece after split
    exact .inr (splitAtDot_length split)
  · exact .inl rfl

/-- The traversal gives the same result with any fuel beyond the path's length. -/
theorem extractAlongPath_fuel_eq :
    ∀ (fuel fuel' : Nat) (obj : Embedded) (path : List Char), path.length + 1 ≤ fuel →
      path.length + 1 ≤ fuel' → extractAlongPath fuel obj path = extractAlongPath fuel' obj path
  | 0, _, _, _, enough, _ => by omega
  | _ + 1, 0, _, _, _, enough' => by omega
  | fuel + 1, fuel' + 1, obj, path, enough, enough' => by
      simp only [extractAlongPath]
      rcases looked : lookupPiece obj path with ⟨_ | sub, rest⟩
      · rfl
      · simp only
        split
        · rfl
        · rename_i notDone
          split
          · -- only a path with a dot is read further, and its rest is shorter
            have shorter : rest.length < path.length := by
              rcases lookupPiece_rest obj path with empty | shorter
              · rw [looked] at empty
                exact absurd (by simp [show rest = [] from empty]) notDone
              · rwa [looked] at shorter
            exact extractAlongPath_fuel_eq fuel fuel' _ rest (by omega) (by omega)
          · rfl

/-- The fuel bound of `extractElementAtPathOrArrayAlongPath` is never reached. -/
theorem extractAlongPath_eq {fuel : Nat} (obj : Embedded) (path : List Char)
    (enough : path.length + 1 ≤ fuel) :
    extractAlongPath fuel obj path = extractElementAtPathOrArrayAlongPath obj path :=
  extractAlongPath_fuel_eq fuel _ obj path enough (Nat.le_refl _)

theorem lookupPiece_fst (obj : Embedded) (path : List Char) :
    (lookupPiece obj path).1 = obj.getField (String.ofList (beforeDot path)) := by
  unfold lookupPiece beforeDot
  split <;> rfl

/-- A traversal that reaches an element found one for the path's first piece. -/
theorem getField_beforeDot_of_extract {obj : Embedded} {path : List Char} {e : Located}
    {rest : List Char} (found : extractElementAtPathOrArrayAlongPath obj path = (some e, rest)) :
    (obj.getField (String.ofList (beforeDot path))).isSome = true := by
  rw [← lookupPiece_fst]
  unfold extractElementAtPathOrArrayAlongPath at found
  simp only [extractAlongPath] at found
  rcases looked : lookupPiece obj path with ⟨_ | sub, after⟩
  · rw [looked] at found
    cases found
  · rfl

/-! ### Located elements -/

theorem map_name_locateFrom (offset : Nat) (obj : BSONObj) :
    (locateFrom offset obj).map Located.name = obj.map Prod.fst := by
  induction obj generalizing offset with
  | nil => rfl
  | cons element rest ih =>
      obtain ⟨name, value⟩ := element
      simp [locateFrom, ih]

theorem mem_locateFrom {offset : Nat} {obj : BSONObj} {e : Located}
    (member : e ∈ locateFrom offset obj) : (e.name, e.value) ∈ obj := by
  induction obj generalizing offset with
  | nil => cases member
  | cons element rest ih =>
      obtain ⟨name, value⟩ := element
      rcases List.mem_cons.mp member with first | later
      · subst first
        exact List.mem_cons_self
      · exact List.mem_cons_of_mem _ (ih later)

/-- The elements of a document that follow others start where those end. -/
theorem locateFrom_append (offset : Nat) (first second : BSONObj) :
    ∃ offset', locateFrom offset (first ++ second) =
      locateFrom offset first ++ locateFrom offset' second := by
  induction first generalizing offset with
  | nil => exact ⟨offset, rfl⟩
  | cons element rest ih =>
      obtain ⟨offset', split⟩ := ih (offset + (elementBytes element).length)
      exact ⟨offset', by simp [locateFrom, split]⟩

theorem offset_le_of_mem_locateFrom {offset : Nat} {obj : BSONObj} {e : Located}
    (member : e ∈ locateFrom offset obj) : offset ≤ e.offset := by
  induction obj generalizing offset with
  | nil => cases member
  | cons element rest ih =>
      obtain ⟨name, value⟩ := element
      rcases List.mem_cons.mp member with first | later
      · subst first
        exact Nat.le_refl _
      · have after := ih later
        omega

/-- Each element starts after the one before it: an element has at least its type byte. -/
theorem pairwise_offset_locateFrom (offset : Nat) (obj : BSONObj) :
    (locateFrom offset obj).Pairwise fun a b => a.offset < b.offset := by
  induction obj generalizing offset with
  | nil => exact List.Pairwise.nil
  | cons element rest ih =>
      obtain ⟨name, value⟩ := element
      refine List.Pairwise.cons ?_ (ih _)
      intro later member
      have after := offset_le_of_mem_locateFrom member
      have positive : 0 < (elementBytes (name, value)).length := by simp [elementBytes]
      simp only
      omega

/-- The top-level element at the offset of a located element is that element. -/
theorem find_offset_locateFrom {offset : Nat} {obj : BSONObj} {e : Located}
    (member : e ∈ locateFrom offset obj) :
    (locateFrom offset obj).find? (fun other => other.offset == e.offset) = some e := by
  have ordered := pairwise_offset_locateFrom offset obj
  generalize locateFrom offset obj = elements at ordered member
  induction elements with
  | nil => cases member
  | cons first rest ih =>
      rcases List.mem_cons.mp member with same | later
      · subst same
        simp
      · have before := List.rel_of_pairwise_cons ordered later
        have differ : first.offset ≠ e.offset := by omega
        simp [differ, ih ordered.of_cons later]

/-- A name that names one element of a document names the element `getField` finds. -/
theorem find_name_of_count_le_one {elements : List Located} {e : Located} (member : e ∈ elements)
    (single : (elements.map Located.name).count e.name ≤ 1) :
    elements.find? (fun other => other.name == e.name) = some e := by
  induction elements with
  | nil => cases member
  | cons first rest ih =>
      by_cases named : first.name = e.name
      · rcases List.mem_cons.mp member with same | later
        · simp [same]
        · -- a second element of that name would be counted twice
          have inRest : 0 < (rest.map Located.name).count e.name :=
            List.count_pos_iff.mpr (List.mem_map.mpr ⟨e, later, rfl⟩)
          simp [named] at single
          omega
      · have later : e ∈ rest := by
          rcases List.mem_cons.mp member with same | later
          · exact absurd (congrArg Located.name same.symm) named
          · exact later
        have single' : (rest.map Located.name).count e.name ≤ 1 := by
          simp [named] at single
          simpa using single
        simp [named, ih later single']

/-- `getField` passes over the elements of other names before the first of its own. -/
theorem getField_append_cons {pre rest : BSONObj} {name : String} {value : Value}
    (absent : ∀ field ∈ pre, field.1 ≠ name) :
    ∃ offset, (⟨pre ++ (name, value) :: rest, 0⟩ : Embedded).getField name =
      some ⟨name, value, offset⟩ := by
  obtain ⟨offset, split⟩ := locateFrom_append 4 pre ((name, value) :: rest)
  have passed : (locateFrom 4 pre).find? (fun e => e.name == name) = none := by
    rw [List.find?_eq_none]
    intro e member named
    exact absent _ (mem_locateFrom member) (by simpa using named)
  refine ⟨offset, ?_⟩
  simp [Embedded.getField, Embedded.elements, split, List.find?_append, passed, locateFrom]

/-- A path without a dot reaches the first element of that name. -/
theorem extract_of_no_dot {obj : Embedded} {path : List Char} {e : Located}
    (noDot : splitAtDot path = none) (found : obj.getField (String.ofList path) = some e) :
    extractElementAtPathOrArrayAlongPath obj path = (some e, []) := by
  simp [extractElementAtPathOrArrayAlongPath, extractAlongPath, lookupPiece, noDot, found]

/-- A dotted path whose first piece names a document reads the rest of the path in it. -/
theorem extract_of_dot {obj : Embedded} {path piece rest : List Char} {prefixElt : Located}
    {fields : BSONObj} (split : splitAtDot path = some (piece, rest)) (more : rest ≠ [])
    (found : obj.getField (String.ofList piece) = some prefixElt)
    (isObject : prefixElt.value = .object fields) :
    extractElementAtPathOrArrayAlongPath obj path =
      extractElementAtPathOrArrayAlongPath (prefixElt.embedded fields) rest := by
  have shorter := splitAtDot_length split
  have notEmpty : rest.isEmpty = false := by simpa using more
  unfold extractElementAtPathOrArrayAlongPath
  simp only [extractAlongPath, lookupPiece, split, found, isObject, Value.type_object, notEmpty]
  exact extractAlongPath_eq _ rest (by omega)

end FastMongo.Index

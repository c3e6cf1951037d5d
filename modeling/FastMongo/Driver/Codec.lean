import FastMongo.Bson.Value

/-!
The Java driver's `DocumentCodec` (`org/bson/codecs/DocumentCodec.java`) as far as it decides
which elements are written and in what order, and what `decode` reads back. A Java value is
either `null`, an `Iterable`, a `Map` written by `writeMap` in the child context, or a value that
the codec registered for its class writes as one BSON value; such a value is identified with
that BSON value, which its codec reads back to an equal object.
-/

namespace FastMongo.Driver

open FastMongo.Bson

/-- `IntegrityVerifiedDocument.DOC_HASH_FIELD_NAME`. -/
def DOC_HASH_FIELD_NAME : String := "_$docHash"

/-- `DocumentCodec.ID_FIELD_NAME`. -/
def ID_FIELD_NAME : String := "_id"

/-- A Java object as `DocumentCodec.writeValue` distinguishes it. -/
inductive JavaValue where
  | null
  | iterable (items : List JavaValue)
  | map (entries : List (String × JavaValue))
  | encoded (value : Value)

mutual
/-- `DocumentCodec.writeValue`. -/
def writeValue : JavaValue → Value
  | .null => .scalar .jstNULL
  | .iterable items => .array (writeIterable 0 items)
  | .map entries => .object (writeEntries entries)
  | .encoded value => value

/-- `DocumentCodec.writeIterable`: the writer names array elements by their index. -/
def writeIterable : Nat → List JavaValue → BSONObj
  | _, [] => []
  | index, item :: rest => (toString index, writeValue item) :: writeIterable (index + 1) rest

/-- The entry loop of `writeMap`: every entry except those named `_$docHash`. -/
def writeEntries : List (String × JavaValue) → BSONObj
  | [] => []
  | (key, value) :: rest =>
      if key = DOC_HASH_FIELD_NAME then writeEntries rest
      else (key, writeValue value) :: writeEntries rest
end

/-- `Map.containsKey`. -/
def containsKey (entries : List (String × JavaValue)) (key : String) : Bool :=
  entries.any fun entry => entry.1 == key

/-- `DocumentCodec.writeMap` on a top-level map: a locked integrity hash first, then in the
collectible context the `_id` (`beforeFields`), then the other entries (`skipField`). -/
def writeMap (collectible : Bool) (integrityHash : Option Int64)
    (entries : List (String × JavaValue)) : BSONObj :=
  let hashField := match integrityHash with
    | some hash => [(DOC_HASH_FIELD_NAME, .scalar (.numberLong hash))]
    | none => []
  let idField := if collectible then
      match entries.lookup ID_FIELD_NAME with
      | some id => [(ID_FIELD_NAME, writeValue id)]
      | none => []
    else []
  hashField ++ idField ++
    writeEntries (entries.filter fun entry => !(collectible && entry.1 == ID_FIELD_NAME))

@[simp] theorem writeEntries_nil : writeEntries [] = [] := by
  simp [writeEntries]

theorem writeEntries_cons (key : String) (value : JavaValue) (rest : List (String × JavaValue)) :
    writeEntries ((key, value) :: rest) =
      if key = DOC_HASH_FIELD_NAME then writeEntries rest
      else (key, writeValue value) :: writeEntries rest := by
  simp [writeEntries]

/-- No top-level element that the entry loop writes is named `_$docHash`. -/
theorem hasField_writeEntries (entries : List (String × JavaValue)) :
    (writeEntries entries).hasField DOC_HASH_FIELD_NAME = false := by
  induction entries with
  | nil => simp [BSONObj.hasField]
  | cons entry rest ih =>
      obtain ⟨key, value⟩ := entry
      by_cases named : key = DOC_HASH_FIELD_NAME
      · simpa [writeEntries_cons, named] using ih
      · have split := BSONObj.hasField_append [(key, writeValue value)] (writeEntries rest)
          DOC_HASH_FIELD_NAME
        rw [List.singleton_append] at split
        rw [writeEntries_cons, if_neg named, split, ih]
        simp [BSONObj.hasField, BSONObj.getField, named]

/-- `LinkedHashMap.put`: an existing key keeps its place and takes the value, a new key is
appended. -/
def put {α : Type} (entries : List (String × α)) (key : String) (value : α) :
    List (String × α) :=
  if entries.any (fun entry => entry.1 == key) then
    entries.map fun entry => if entry.1 = key then (key, value) else entry
  else entries ++ [(key, value)]

mutual
/-- `DocumentCodec.readValue`: BSON null is Java `null`, an array a `List`, an embedded document
a `Document` (the registry's codec for `DOCUMENT`), anything else the object its class's codec
decodes. -/
def readValue : Value → JavaValue
  | .scalar .jstNULL => .null
  | .array items => .iterable (readList items)
  | .object fields => .map (readFields [] fields)
  | .scalar value => .encoded (.scalar value)

/-- `DocumentCodec.readList`: the element names of an array are not read. -/
def readList : BSONObj → List JavaValue
  | [] => []
  | (_, value) :: rest => readValue value :: readList rest

/-- The loop of `DocumentCodec.decode`: `document.put(fieldName, readValue(...))` for every
element in order. -/
def readFields (document : List (String × JavaValue)) : BSONObj → List (String × JavaValue)
  | [] => document
  | (name, value) :: rest => readFields (put document name (readValue value)) rest
end

/-- `DocumentCodec.decode`. -/
def decode (doc : BSONObj) : List (String × JavaValue) :=
  readFields [] doc

mutual
/-- The Java values that `decode` can give back: `null`, lists of them, maps with distinct keys
(every `Map` has them) of them, and objects whose codec writes a BSON value other than null. -/
def JavaValue.isDecodable : JavaValue → Bool
  | .null => true
  | .iterable items => itemsDecodable items
  | .map entries => decide (entries.map Prod.fst).Nodup && entriesDecodable entries
  | .encoded (.scalar value) => value != .jstNULL
  | .encoded _ => false

/-- `isDecodable` of every item of a list. -/
def itemsDecodable : List JavaValue → Bool
  | [] => true
  | item :: rest => item.isDecodable && itemsDecodable rest

/-- `isDecodable` of every value of a map. -/
def entriesDecodable : List (String × JavaValue) → Bool
  | [] => true
  | (_, value) :: rest => value.isDecodable && entriesDecodable rest
end

mutual
/-- A Java value with every map entry named `_$docHash` removed, at every depth. -/
def JavaValue.stripDocHash : JavaValue → JavaValue
  | .iterable items => .iterable (stripItems items)
  | .map entries => .map (stripEntries entries)
  | value => value

/-- `stripDocHash` of every item of a list. -/
def stripItems : List JavaValue → List JavaValue
  | [] => []
  | item :: rest => item.stripDocHash :: stripItems rest

/-- The entries of a map without those named `_$docHash`, each value stripped in turn. -/
def stripEntries : List (String × JavaValue) → List (String × JavaValue)
  | [] => []
  | (key, value) :: rest =>
      if key = DOC_HASH_FIELD_NAME then stripEntries rest
      else (key, value.stripDocHash) :: stripEntries rest
end

theorem put_absent {α : Type} {entries : List (String × α)} {key : String} (value : α)
    (absent : key ∉ entries.map Prod.fst) : put entries key value = entries ++ [(key, value)] := by
  have notContained : (entries.any fun entry => entry.1 == key) = false := by
    simp only [List.any_eq_false, beq_iff_eq]
    intro entry member named
    exact absent (List.mem_map.mpr ⟨entry, member, named⟩)
  simp [put, notContained]

mutual
/-- A decodable value is read back as itself, stripped of its `_$docHash` entries. -/
theorem readValue_writeValue : ∀ value : JavaValue, value.isDecodable = true →
    readValue (writeValue value) = value.stripDocHash
  | .null, _ => rfl
  | .iterable items, decodable => by
      rw [writeValue, readValue, readList_writeIterable 0 items decodable, JavaValue.stripDocHash]
  | .map entries, decodable => by
      simp only [JavaValue.isDecodable, Bool.and_eq_true, decide_eq_true_eq] at decodable
      rw [writeValue, readValue, readFields_writeEntries [] entries decodable.2 decodable.1
        (by simp), List.nil_append, JavaValue.stripDocHash]
  | .encoded (.scalar value), decodable => by
      cases value <;> simp_all [JavaValue.isDecodable, writeValue, readValue, JavaValue.stripDocHash]
  | .encoded (.object _), decodable => by simp [JavaValue.isDecodable] at decodable
  | .encoded (.array _), decodable => by simp [JavaValue.isDecodable] at decodable

/-- The items of a list are read back in order, whatever names the writer gave them. -/
theorem readList_writeIterable : ∀ (index : Nat) (items : List JavaValue), itemsDecodable items = true →
    readList (writeIterable index items) = stripItems items
  | _, [], _ => by simp [writeIterable, readList, stripItems]
  | index, item :: rest, decodable => by
      simp only [itemsDecodable, Bool.and_eq_true] at decodable
      rw [writeIterable, readList, readValue_writeValue item decodable.1,
        readList_writeIterable (index + 1) rest decodable.2, stripItems]

/-- The entries the loop of `writeMap` writes are put back one after the other behind what
`decode` has read so far, as long as their keys are new to it. -/
theorem readFields_writeEntries : ∀ (document : List (String × JavaValue))
    (entries : List (String × JavaValue)), entriesDecodable entries = true →
    (entries.map Prod.fst).Nodup → (∀ key ∈ entries.map Prod.fst, key ∉ document.map Prod.fst) →
    readFields document (writeEntries entries) = document ++ stripEntries entries
  | _, [], _, _, _ => by simp [readFields, stripEntries]
  | document, (key, value) :: rest, decodable, distinct, fresh => by
      simp only [entriesDecodable, Bool.and_eq_true] at decodable
      simp only [List.map_cons, List.nodup_cons] at distinct
      have restFresh : ∀ other ∈ rest.map Prod.fst, other ∉ document.map Prod.fst :=
        fun other member => fresh other (List.mem_cons_of_mem _ member)
      rw [writeEntries_cons, stripEntries]
      by_cases named : key = DOC_HASH_FIELD_NAME
      · rw [if_pos named, if_pos named]
        exact readFields_writeEntries document rest decodable.2 distinct.2 restFresh
      · rw [if_neg named, if_neg named, readFields, readValue_writeValue value decodable.1,
          put_absent _ (fresh key List.mem_cons_self)]
        -- the rest is read behind the entry just put, whose key it does not repeat
        have afterFresh : ∀ other ∈ rest.map Prod.fst,
            other ∉ (document ++ [(key, value.stripDocHash)]).map Prod.fst := by
          intro other member
          simp only [List.map_append, List.map_cons, List.map_nil, List.mem_append,
            List.mem_singleton, not_or]
          exact ⟨restFresh other member, fun same => distinct.1 (same ▸ member)⟩
        rw [readFields_writeEntries _ rest decodable.2 distinct.2 afterFresh]
        simp
end

end FastMongo.Driver

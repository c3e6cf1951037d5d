import FastMongo.Index.FieldPath
import FastMongo.Lib.Reachability
import Mathlib.Data.List.GetD
import Mathlib.Data.List.Induction
import Mathlib.Data.List.Infix
import Mathlib.Data.List.Nodup
import Mathlib.Logic.Function.Basic

/-!
`UnifiedFieldExtractor` (`unified_field_extractor.h`): registered field paths get one slot each,
and one pass over the top-level elements of a document fills every slot. Names are looked up
through a four-byte signature: a table from a signature to the first slot that had it, lists of
the later slots that share it, and, after `finalize`, a table from the signature of a dotted
path's first piece to the slots of the paths under it.

The registration tables are proved to keep every registered path reachable from its signature
and every slot distinct, so `registerField` returns the index of a path in the list of fields.
`extract` is then characterised slot by slot: a path without a dot holds the last element of its
name, and a dotted path the first element whose name has its first piece's signature and that
yields something for the rest of the path; its array flag is raised by every such element tried
while the slot is still EOO whose extraction stops before the end of the path.
-/

namespace FastMongo.Index

open FastMongo.Bson

/-- `UnifiedFieldExtractor::kMaxFields`. -/
def kMaxFields : Nat := 256

/-- `UnifiedFieldExtractor::kInvalidSlot`. -/
def kInvalidSlot : UInt8 := 255

/-- `makeSignature`: the length byte, the first and the last byte, and an 8-bit hash; the empty
name has signature 0. -/
def makeSignature (s : List UInt8) : UInt32 :=
  match s with
  | [] => 0
  | first :: rest =>
      let hash : UInt8 := s.foldl (fun hash c => hash * 31 + c) 0
      ((s.length &&& 0xFF).toUInt32 <<< 24) ||| (first.toUInt32 <<< 16) |||
        (((first :: rest).getLast (List.cons_ne_nil first rest)).toUInt32 <<< 8) ||| hash.toUInt32

/-- The signature of a name's bytes, as registration and `extract` both compute it. -/
def fieldSignature (name : String) : UInt32 :=
  makeSignature (utf8 name)

/-- The registration tables of an extractor. `_topLevelSigs` is left out: nothing reads it. -/
structure Registry where
  sigToSlot : UInt32 → Option UInt8
  collisionSlots : UInt32 → List UInt8
  fields : List String
  isNested : List Bool
  nestedPrefixes : List String
  topLevelSlots : List UInt8
  nestedSlots : List UInt8
  nestedPrefixSigs : UInt32 → List UInt8
  indexSlots : String → Option (List UInt8)
  digestSlots : String → Option (List UInt8)
  finalized : Bool

/-- The results of the last `extract`: an absent element is EOO. The saved document is left out. -/
structure Extraction where
  slots : List (Option Located)
  hasArrayAlongPath : List Bool
  extractedCount : Nat

/-- `_slots[slot]`, EOO past the last slot. -/
def Extraction.get (ex : Extraction) (slot : UInt8) : Option Located :=
  ex.slots.getD slot.toNat none

structure UnifiedFieldExtractor where
  registry : Registry
  extraction : Extraction

namespace Registry

/-- The tables of `UnifiedFieldExtractor() = default`. -/
def empty : Registry :=
  ⟨fun _ => none, fun _ => [], [], [], [], [], [], fun _ => [], fun _ => none, fun _ => none, false⟩

/-- `_fields[slot]`. -/
def fieldAt (r : Registry) (slot : UInt8) : String :=
  r.fields.getD slot.toNat ""

/-- The search of `registerField` for a path already registered: the slot its signature maps
to, then every field when that slot holds another name, then the collision list. -/
def findRegistered (r : Registry) (fieldPath : String) (sig : UInt32) : Option UInt8 :=
  let inTable : Option UInt8 :=
    match r.sigToSlot sig with
    | some slot => if r.fieldAt slot == fieldPath then some slot else (r.fields.idxOf? fieldPath).map Nat.toUInt8
    | none => none
  inTable.or ((r.collisionSlots sig).find? fun slot => r.fieldAt slot == fieldPath)

/-- The bookkeeping of a new field in `slot`. The signature table is tested before the push, so a
signature already there sends the slot to its collision list. -/
def addField (r : Registry) (fieldPath : String) (sig : UInt32) (slot : UInt8) : Registry :=
  let dotted := splitAtDot fieldPath.toList
  { r with
    fields := r.fields ++ [fieldPath]
    sigToSlot := if (r.sigToSlot sig).isSome then r.sigToSlot else Function.update r.sigToSlot sig (some slot)
    collisionSlots :=
      if (r.sigToSlot sig).isSome then Function.update r.collisionSlots sig (r.collisionSlots sig ++ [slot])
      else r.collisionSlots
    isNested := r.isNested ++ [dotted.isSome]
    topLevelSlots := if dotted.isSome then r.topLevelSlots else r.topLevelSlots ++ [slot]
    nestedSlots := if dotted.isSome then r.nestedSlots ++ [slot] else r.nestedSlots
    nestedPrefixes :=
      match dotted with
      | some (before, _) => r.nestedPrefixes ++ [String.ofList before]
      | none => r.nestedPrefixes }

/-- `registerField`: a registered path keeps its slot; a new one takes the next slot while fewer
than `kMaxFields - 1` are taken. -/
def registerField (r : Registry) (fieldPath : String) : Registry × UInt8 :=
  if r.finalized then (r, kInvalidSlot)
  else
    let sig := fieldSignature fieldPath
    match r.findRegistered fieldPath sig with
    | some slot => (r, slot)
    | none =>
        if r.fields.length ≥ kMaxFields - 1 then (r, kInvalidSlot)
        else (r.addField fieldPath sig r.fields.length.toUInt8, r.fields.length.toUInt8)

/-- The loop `registerIndex` and `registerDigest` share: each field in turn, keeping the valid
slots. -/
def registerFields (r : Registry) : List String → Registry × List UInt8
  | [] => (r, [])
  | f :: rest =>
      let first := r.registerField f
      let later := first.1.registerFields rest
      (later.1, if first.2 ≠ kInvalidSlot then first.2 :: later.2 else later.2)

def registerIndex (r : Registry) (indexName : String) (fields : List String) : Registry × List UInt8 :=
  let registered := r.registerFields fields
  ({ registered.1 with indexSlots := Function.update registered.1.indexSlots indexName (some registered.2) },
    registered.2)

def registerDigest (r : Registry) (digestName : String) (fields : List String) : Registry × List UInt8 :=
  let registered := r.registerFields fields
  ({ registered.1 with digestSlots := Function.update registered.1.digestSlots digestName (some registered.2) },
    registered.2)

end Registry

/-- A registration call before `finalize`. -/
inductive Registration where
  | field (fieldPath : String)
  | index (indexName : String) (fields : List String)
  | digest (digestName : String) (fields : List String)

def Registry.register (r : Registry) : Registration → Registry
  | .field fieldPath => (r.registerField fieldPath).1
  | .index indexName fields => (r.registerIndex indexName fields).1
  | .digest digestName fields => (r.registerDigest digestName fields).1

/-- A new extractor after `calls`. -/
def registered (calls : List Registration) : UnifiedFieldExtractor :=
  ⟨calls.foldl Registry.register Registry.empty, ⟨[], [], 0⟩⟩

/-- `std::vector::resize(n, value)`. -/
def resize {α : Type} (l : List α) (n : Nat) (value : α) : List α :=
  l.take n ++ List.replicate (n - l.length) value

/-- One pass of the prefix loop of `finalize`: the nested slot joins the list of its prefix's
signature. -/
def addPrefixSig (table : UInt32 → List UInt8) (entry : UInt8 × String) : UInt32 → List UInt8 :=
  Function.update table (fieldSignature entry.2) (table (fieldSignature entry.2) ++ [entry.1])

namespace UnifiedFieldExtractor

def finalize (x : UnifiedFieldExtractor) : UnifiedFieldExtractor where
  registry :=
    { x.registry with
      finalized := true
      nestedPrefixSigs :=
        (x.registry.nestedSlots.zip x.registry.nestedPrefixes).foldl addPrefixSig x.registry.nestedPrefixSigs }
  extraction :=
    { x.extraction with
      slots := resize x.extraction.slots x.registry.fields.length none
      hasArrayAlongPath := resize x.extraction.hasArrayAlongPath x.registry.fields.length false }

end UnifiedFieldExtractor

/-- The test of both top-level branches of `extract`: the slot holds a path without a dot whose
bytes are the element's name. -/
def Registry.isTopLevelField (r : Registry) (name : String) (slot : UInt8) : Bool :=
  !r.isNested.getD slot.toNat false && r.fieldAt slot == name

/-- The fast path of `extract`: the slot of the element's signature takes it when it holds a
top-level field of the element's name. -/
def fastPath (r : Registry) (ex : Extraction) (e : Located) (sig : UInt32) : Extraction :=
  match r.sigToSlot sig with
  | some slot =>
      if r.isTopLevelField e.name slot then
        { ex with slots := ex.slots.set slot.toNat (some e), extractedCount := ex.extractedCount + 1 }
      else ex
  | none => ex

/-- The collision list of the element's signature: its first top-level field of the element's
name takes it. -/
def collisionPath (r : Registry) (ex : Extraction) (e : Located) (sig : UInt32) : Extraction :=
  match (r.collisionSlots sig).find? (r.isTopLevelField e.name) with
  | some slot => { ex with slots := ex.slots.set slot.toNat (some e), extractedCount := ex.extractedCount + 1 }
  | none => ex

/-- What the nested branch gives the field `fullPath` from an element holding a document or an
array, with the array flag: the document is searched for the path after the first dot, and an
array is taken whole. -/
def nestedExtraction (fullPath : String) (e : Located) : Option Located × Bool :=
  let subPath := ((splitAtDot fullPath.toList).map Prod.snd).getD []
  match e.value with
  | .object fields =>
      let found := extractElementAtPathOrArrayAlongPath (e.embedded fields) subPath
      (found.1, !found.2.isEmpty)
  | _ => (some e, true)

/-- One slot of a prefix list: only a slot still EOO is filled. -/
def fillNested (r : Registry) (e : Located) (ex : Extraction) (slot : UInt8) : Extraction :=
  if (ex.get slot).isNone then
    let result := nestedExtraction (r.fieldAt slot) e
    { slots := ex.slots.set slot.toNat result.1
      hasArrayAlongPath := if result.2 then ex.hasArrayAlongPath.set slot.toNat true else ex.hasArrayAlongPath
      extractedCount := if result.1.isSome then ex.extractedCount + 1 else ex.extractedCount }
  else ex

/-- The nested branch of `extract`, for an element holding a document or an array: every slot
listed under its signature, matched by signature alone. -/
def nestedPath (r : Registry) (ex : Extraction) (e : Located) (sig : UInt32) : Extraction :=
  if e.value.type == .object || e.value.type == .array then (r.nestedPrefixSigs sig).foldl (fillNested r e) ex
  else ex

/-- One element of the pass of `extract`. -/
def extractElement (r : Registry) (ex : Extraction) (e : Located) : Extraction :=
  let sig := fieldSignature e.name
  nestedPath r (collisionPath r (fastPath r ex e sig) e sig) e sig

namespace UnifiedFieldExtractor

/-- `extract`: the slots are cleared, then every top-level element is read in order. -/
def extract (x : UnifiedFieldExtractor) (doc : BSONObj) : UnifiedFieldExtractor :=
  let cleared : Extraction :=
    ⟨x.extraction.slots.map fun _ => none, x.extraction.hasArrayAlongPath.map fun _ => false, 0⟩
  { x with extraction := (locateFrom 4 doc).foldl (extractElement x.registry) cleared }

/-- `get`: EOO past the last slot. -/
def get (x : UnifiedFieldExtractor) (slot : UInt8) : Option Located :=
  x.extraction.get slot

/-- `hasArrayAlongPath(slot)`: false past the last slot. -/
def hasArrayAlongPath (x : UnifiedFieldExtractor) (slot : UInt8) : Bool :=
  x.extraction.hasArrayAlongPath.getD slot.toNat false

end UnifiedFieldExtractor

/-- What a dotted path's slot takes from one top-level element: the element holds a document or an
array, and its name has the signature of the path's first piece. -/
def prefixCandidate (prefixSig : UInt32) (fullPath : String) (e : Located) : Option Located :=
  if (e.value.type == .object || e.value.type == .array) && fieldSignature e.name == prefixSig then
    (nestedExtraction fullPath e).1
  else none

/-- The element `extract` leaves in the slot of `path`: for a path without a dot the last
element of that name; for a dotted path the first candidate of its first piece's signature that
yields something. -/
def extractedValue (doc : BSONObj) (path : String) : Option Located :=
  match splitAtDot path.toList with
  | none => ((locateFrom 4 doc).filter fun e => e.name == path).getLast?
  | some (before, _) => (locateFrom 4 doc).findSome? (prefixCandidate (fieldSignature (String.ofList before)) path)

/-- Whether the nested branch tries an element for a dotted path whose first piece has
signature `prefixSig`. -/
def prefixApplies (prefixSig : UInt32) (e : Located) : Bool :=
  (e.value.type == .object || e.value.type == .array) && fieldSignature e.name == prefixSig

/-- The array flag `extract` leaves for a dotted path: candidates are tried in order while the
slot is still EOO, and each one whose extraction stops before the end of the path raises it. -/
def arrayFlagged (prefixSig : UInt32) (path : String) : List Located → Bool
  | [] => false
  | e :: rest =>
      if prefixApplies prefixSig e then
        (nestedExtraction path e).2 || ((nestedExtraction path e).1.isNone && arrayFlagged prefixSig path rest)
      else arrayFlagged prefixSig path rest

/-- The flag `extract` leaves in the slot of `path`: never for a path without a dot. -/
def extractedArrayFlag (doc : BSONObj) (path : String) : Bool :=
  match splitAtDot path.toList with
  | none => false
  | some (before, _) => arrayFlagged (fieldSignature (String.ofList before)) path (locateFrom 4 doc)

/-- The value a registered path stands for, as `getField` reads it: the first element of the
path's name, or for `q.r` the first element named `q`, searched for `r` when it holds a document
and taken whole when it holds an array. -/
def referenceValue (doc : BSONObj) (path : String) : Option Located :=
  let top : Embedded := ⟨doc, 0⟩
  match splitAtDot path.toList with
  | none => top.getField path
  | some (before, after) =>
      match top.getField (String.ofList before) with
      | some e =>
          match e.value with
          | .object fields => (extractElementAtPathOrArrayAlongPath (e.embedded fields) after).1
          | .array _ => some e
          | .scalar _ => none
      | none => none

/-! ### Registration -/

namespace Registry

variable {r : Registry}

/-- Slot `slot` holds a field of signature `sig`. -/
def HasSignature (r : Registry) (sig : UInt32) (slot : UInt8) : Prop :=
  slot.toNat < r.fields.length ∧ fieldSignature (r.fieldAt slot) = sig

/-- What the tables of registered fields keep: distinct paths below the invalid slot, `_isNested`
parallel to the fields, and every slot reachable from its signature through the table or the
collision list, which hold nothing else. -/
structure Consistent (r : Registry) : Prop where
  nodup : r.fields.Nodup
  length_le : r.fields.length ≤ 255
  isNested_eq : r.isNested = r.fields.map fun f => (splitAtDot f.toList).isSome
  sigToSlot_sound : ∀ {sig slot}, r.sigToSlot sig = some slot → r.HasSignature sig slot
  collision_sound : ∀ {sig slot}, slot ∈ r.collisionSlots sig → r.HasSignature sig slot
  covered : ∀ slot : UInt8, slot.toNat < r.fields.length →
    r.sigToSlot (fieldSignature (r.fieldAt slot)) = some slot ∨
      slot ∈ r.collisionSlots (fieldSignature (r.fieldAt slot))

/-- The registration invariant: consistent tables, the nested slots listed with the first pieces of
their paths, and nothing finalized yet. -/
structure Registering (r : Registry) : Prop extends r.Consistent where
  nested_length : r.nestedSlots.length = r.nestedPrefixes.length
  nested_sound : ∀ {slot pre}, (slot, pre) ∈ r.nestedSlots.zip r.nestedPrefixes →
    slot.toNat < r.fields.length ∧
      ∃ before after, splitAtDot (r.fieldAt slot).toList = some (before, after) ∧ pre = String.ofList before
  nested_complete : ∀ slot : UInt8, slot.toNat < r.fields.length → ∀ {before after},
    splitAtDot (r.fieldAt slot).toList = some (before, after) →
      (slot, String.ofList before) ∈ r.nestedSlots.zip r.nestedPrefixes
  prefixSigs_empty : ∀ sig, r.nestedPrefixSigs sig = []
  not_finalized : r.finalized = false

theorem toNat_toUInt8_of_le {n : Nat} (small : n ≤ 255) : n.toUInt8.toNat = n := by
  rw [Nat.toUInt8_eq, UInt8.toNat_ofNat']
  exact Nat.mod_eq_of_lt (by omega)

theorem fieldAt_mem {slot : UInt8} (bound : slot.toNat < r.fields.length) : r.fieldAt slot ∈ r.fields := by
  rw [fieldAt, List.getD_eq_getElem _ _ bound]
  exact List.getElem_mem bound

theorem Consistent.idxOf_fieldAt (c : r.Consistent) {slot : UInt8} (bound : slot.toNat < r.fields.length) :
    (r.fields.idxOf (r.fieldAt slot)).toUInt8 = slot := by
  rw [fieldAt, List.getD_eq_getElem _ _ bound, c.nodup.idxOf_getElem _ bound]
  exact UInt8.ofNat_toNat

/-- A slot holding `p` is the index of `p`: no path sits in two slots. -/
theorem Consistent.slot_eq (c : r.Consistent) {slot : UInt8} (bound : slot.toNat < r.fields.length)
    {p : String} (named : r.fieldAt slot = p) : slot = (r.fields.idxOf p).toUInt8 := by
  rw [← named, c.idxOf_fieldAt bound]

theorem Consistent.fieldAt_idxOf (c : r.Consistent) {p : String} (mem : p ∈ r.fields) :
    (r.fields.idxOf p).toUInt8.toNat < r.fields.length ∧ r.fieldAt (r.fields.idxOf p).toUInt8 = p := by
  have below := List.idxOf_lt_length_of_mem mem
  have small : (r.fields.idxOf p).toUInt8.toNat = r.fields.idxOf p :=
    toNat_toUInt8_of_le (Nat.le_trans (Nat.le_of_lt below) c.length_le)
  refine ⟨by rw [small]; exact below, ?_⟩
  rw [fieldAt, small, List.getD_eq_getElem _ _ below, List.getElem_idxOf below]

/-- The full scan of `registerField` finds a registered path at its index. -/
theorem Consistent.idxOf?_eq (c : r.Consistent) {p : String} (mem : p ∈ r.fields) :
    r.fields.idxOf? p = some (r.fields.idxOf p) := by
  obtain ⟨i, found⟩ := Option.isSome_iff_exists.mp (List.isSome_idxOf?.mpr mem)
  obtain ⟨bound, at_i, _⟩ := List.idxOf?_eq_some_iff.mp found
  rw [found, ← at_i, c.nodup.idxOf_getElem _ bound]

/-- A slot of a collision list that names `p` is the index of `p`. -/
theorem Consistent.find_collision (c : r.Consistent) {sig : UInt32} {p : String} {slot : UInt8}
    (found : (r.collisionSlots sig).find? (fun slot => r.fieldAt slot == p) = some slot) :
    p ∈ r.fields ∧ slot = (r.fields.idxOf p).toUInt8 := by
  have named : r.fieldAt slot = p := by simpa using List.find?_some found
  have bound := (c.collision_sound (List.mem_of_find?_eq_some found)).1
  exact ⟨named ▸ fieldAt_mem bound, c.slot_eq bound named⟩

theorem findRegistered_of_table {p : String} {sig : UInt32} {slot : UInt8} (table : r.sigToSlot sig = some slot) :
    r.findRegistered p sig =
      (if r.fieldAt slot == p then some slot else (r.fields.idxOf? p).map Nat.toUInt8).or
        ((r.collisionSlots sig).find? fun slot => r.fieldAt slot == p) := by
  simp only [findRegistered, table]

theorem findRegistered_of_not_table {p : String} {sig : UInt32} (table : r.sigToSlot sig = none) :
    r.findRegistered p sig = (r.collisionSlots sig).find? fun slot => r.fieldAt slot == p := by
  simp only [findRegistered, table, Option.none_or]

theorem Consistent.findRegistered_of_mem (c : r.Consistent) {p : String} (mem : p ∈ r.fields) :
    r.findRegistered p (fieldSignature p) = some (r.fields.idxOf p).toUInt8 := by
  obtain ⟨bound, named⟩ := c.fieldAt_idxOf mem
  cases table : r.sigToSlot (fieldSignature p) with
  | some slot =>
      rw [findRegistered_of_table table]
      by_cases same : r.fieldAt slot = p
      · -- the table's slot holds `p` itself
        rw [if_pos (beq_iff_eq.mpr same), c.slot_eq (c.sigToSlot_sound table).1 same, Option.some_or]
      · -- the table's slot holds another name of the same signature: the scan finds `p`
        rw [if_neg (by simpa using same), c.idxOf?_eq mem, Option.map_some, Option.some_or]
  | none =>
      rw [findRegistered_of_not_table table]
      have listed : (r.fields.idxOf p).toUInt8 ∈ r.collisionSlots (fieldSignature p) := by
        rcases c.covered _ bound with inTable | inList
        · rw [named, table] at inTable
          cases inTable
        · rwa [named] at inList
      have isSome : ((r.collisionSlots (fieldSignature p)).find? fun slot => r.fieldAt slot == p).isSome :=
        List.find?_isSome.mpr ⟨_, listed, by rw [named]; exact beq_self_eq_true p⟩
      obtain ⟨slot, found⟩ := Option.isSome_iff_exists.mp isSome
      rw [found, (c.find_collision found).2]

theorem Consistent.findRegistered_of_not_mem (c : r.Consistent) {p : String} (fresh : p ∉ r.fields) :
    r.findRegistered p (fieldSignature p) = none := by
  have noCollision :
      (r.collisionSlots (fieldSignature p)).find? (fun slot => r.fieldAt slot == p) = none := by
    cases found : (r.collisionSlots (fieldSignature p)).find? (fun slot => r.fieldAt slot == p) with
    | none => rfl
    | some slot => exact absurd (c.find_collision found).1 fresh
  cases table : r.sigToSlot (fieldSignature p) with
  | some slot =>
      have other : r.fieldAt slot ≠ p := fun same => fresh (same ▸ fieldAt_mem (c.sigToSlot_sound table).1)
      rw [findRegistered_of_table table, if_neg (by simpa using other), List.idxOf?_eq_none_iff.mpr fresh,
        Option.map_none, Option.none_or, noCollision]
  | none => rw [findRegistered_of_not_table table, noCollision]

/-- `registerField` before `finalize`: a registered path gets its index back, a new one the next
slot while there is room, and the invalid slot after that. -/
theorem registerField_eq (unfinished : r.finalized = false) (c : r.Consistent) (p : String) :
    r.registerField p =
      if p ∈ r.fields then (r, (r.fields.idxOf p).toUInt8)
      else if r.fields.length < 255 then (r.addField p (fieldSignature p) r.fields.length.toUInt8, r.fields.length.toUInt8)
      else (r, kInvalidSlot) := by
  by_cases mem : p ∈ r.fields
  · simp [registerField, unfinished, c.findRegistered_of_mem mem, mem]
  · have full : r.fields.length ≥ kMaxFields - 1 ↔ ¬r.fields.length < 255 := by
      unfold kMaxFields
      omega
    simp only [registerField, unfinished, c.findRegistered_of_not_mem mem, mem, full, ite_not, if_false,
      Bool.false_eq_true]

section AddField

variable {p : String} {sig : UInt32} {slot : UInt8}

@[simp] theorem addField_fields : (r.addField p sig slot).fields = r.fields ++ [p] := rfl

@[simp] theorem addField_isNested :
    (r.addField p sig slot).isNested = r.isNested ++ [(splitAtDot p.toList).isSome] := rfl

@[simp] theorem addField_sigToSlot :
    (r.addField p sig slot).sigToSlot =
      if (r.sigToSlot sig).isSome then r.sigToSlot else Function.update r.sigToSlot sig (some slot) := rfl

@[simp] theorem addField_collisionSlots :
    (r.addField p sig slot).collisionSlots =
      if (r.sigToSlot sig).isSome then Function.update r.collisionSlots sig (r.collisionSlots sig ++ [slot])
      else r.collisionSlots := rfl

@[simp] theorem addField_nestedPrefixSigs : (r.addField p sig slot).nestedPrefixSigs = r.nestedPrefixSigs := rfl

@[simp] theorem addField_finalized : (r.addField p sig slot).finalized = r.finalized := rfl

theorem fieldAt_addField_of_lt {t : UInt8} (bound : t.toNat < r.fields.length) :
    (r.addField p sig slot).fieldAt t = r.fieldAt t :=
  List.getD_append _ _ _ _ bound

theorem fieldAt_addField_new (room : r.fields.length < 255) :
    (r.addField p sig r.fields.length.toUInt8).fieldAt r.fields.length.toUInt8 = p := by
  rw [fieldAt, toNat_toUInt8_of_le (by omega), addField_fields,
    List.getD_append_right _ _ _ _ (Nat.le_refl _), Nat.sub_self]
  rfl

theorem new_lt_addField (room : r.fields.length < 255) :
    r.fields.length.toUInt8.toNat < (r.addField p sig r.fields.length.toUInt8).fields.length := by
  rw [toNat_toUInt8_of_le (by omega), addField_fields, List.length_append, List.length_singleton]
  exact Nat.lt_succ_self _

/-- A slot of the grown fields is an old slot or the new one. -/
theorem lt_addField_cases {t : UInt8} (bound : t.toNat < (r.addField p sig slot).fields.length) :
    t.toNat < r.fields.length ∨ t = r.fields.length.toUInt8 := by
  rw [addField_fields, List.length_append, List.length_singleton] at bound
  rcases Nat.lt_succ_iff_lt_or_eq.mp bound with old | new
  · exact .inl old
  · right
    rw [← new]
    exact UInt8.ofNat_toNat.symm

theorem HasSignature.addField {sig' : UInt32} {t : UInt8} (has : r.HasSignature sig' t) :
    (r.addField p sig slot).HasSignature sig' t := by
  obtain ⟨bound, signed⟩ := has
  refine ⟨?_, ?_⟩
  · rw [addField_fields, List.length_append]
    exact Nat.lt_add_right _ bound
  · rw [fieldAt_addField_of_lt bound]
    exact signed

theorem sigToSlot_addField_of_some {sig' : UInt32} {t : UInt8} (table : r.sigToSlot sig' = some t) :
    (r.addField p sig slot).sigToSlot sig' = some t := by
  rw [addField_sigToSlot]
  split
  · exact table
  · rename_i absent
    have other : sig' ≠ sig := fun same => absent (by rw [← same, table]; rfl)
    rw [Function.update_of_ne other, table]

theorem mem_collisionSlots_addField_of_mem {sig' : UInt32} {t : UInt8} (listed : t ∈ r.collisionSlots sig') :
    t ∈ (r.addField p sig slot).collisionSlots sig' := by
  rw [addField_collisionSlots]
  split
  · by_cases same : sig' = sig
    · subst same
      rw [Function.update_self]
      exact List.mem_append_left _ listed
    · rw [Function.update_of_ne same]
      exact listed
  · exact listed

/-- The new slot is reachable from its signature: the table takes it, or the collision list when
the table already had the signature. -/
theorem addField_covers :
    (r.addField p sig slot).sigToSlot sig = some slot ∨ slot ∈ (r.addField p sig slot).collisionSlots sig := by
  by_cases present : (r.sigToSlot sig).isSome
  · right
    rw [addField_collisionSlots, if_pos present, Function.update_self]
    exact List.mem_append_right _ (List.mem_singleton_self slot)
  · left
    rw [addField_sigToSlot, if_neg present, Function.update_self]

theorem sigToSlot_addField {sig' : UInt32} {t : UInt8} (table : (r.addField p sig slot).sigToSlot sig' = some t) :
    r.sigToSlot sig' = some t ∨ sig' = sig ∧ t = slot := by
  rw [addField_sigToSlot] at table
  split at table
  · exact .inl table
  · by_cases same : sig' = sig
    · subst same
      rw [Function.update_self] at table
      exact .inr ⟨rfl, (Option.some.inj table).symm⟩
    · rw [Function.update_of_ne same] at table
      exact .inl table

theorem collisionSlots_addField {sig' : UInt32} {t : UInt8}
    (listed : t ∈ (r.addField p sig slot).collisionSlots sig') :
    t ∈ r.collisionSlots sig' ∨ sig' = sig ∧ t = slot := by
  rw [addField_collisionSlots] at listed
  split at listed
  · by_cases same : sig' = sig
    · subst same
      rw [Function.update_self, List.mem_append, List.mem_singleton] at listed
      exact listed.imp id fun new => ⟨rfl, new⟩
    · rw [Function.update_of_ne same] at listed
      exact .inl listed
  · exact .inl listed

theorem addField_zip_of_none (top : splitAtDot p.toList = none) :
    (r.addField p sig slot).nestedSlots.zip (r.addField p sig slot).nestedPrefixes =
      r.nestedSlots.zip r.nestedPrefixes := by
  simp [addField, top]

theorem addField_zip_of_some (same : r.nestedSlots.length = r.nestedPrefixes.length) {before after : List Char}
    (dotted : splitAtDot p.toList = some (before, after)) :
    (r.addField p sig slot).nestedSlots.zip (r.addField p sig slot).nestedPrefixes =
      r.nestedSlots.zip r.nestedPrefixes ++ [(slot, String.ofList before)] := by
  simp [addField, dotted, List.zip_append same]

theorem Consistent.addField (c : r.Consistent) (fresh : p ∉ r.fields) (room : r.fields.length < 255) :
    (r.addField p (fieldSignature p) r.fields.length.toUInt8).Consistent := by
  have newSlot :
      (r.addField p (fieldSignature p) r.fields.length.toUInt8).HasSignature (fieldSignature p)
        r.fields.length.toUInt8 :=
    ⟨new_lt_addField room, by rw [fieldAt_addField_new room]⟩
  refine ⟨?_, ?_, ?_, ?_, ?_, ?_⟩
  · rw [addField_fields, List.nodup_append]
    exact ⟨c.nodup, List.nodup_singleton p, fun a old b new same => by
      rw [List.mem_singleton] at new
      exact fresh (new ▸ same ▸ old)⟩
  · rw [addField_fields, List.length_append, List.length_singleton]
    omega
  · rw [addField_isNested, addField_fields, c.isNested_eq, List.map_append]
    rfl
  · intro sig' t table
    rcases sigToSlot_addField table with old | ⟨rfl, rfl⟩
    · exact (c.sigToSlot_sound old).addField
    · exact newSlot
  · intro sig' t listed
    rcases collisionSlots_addField listed with old | ⟨rfl, rfl⟩
    · exact (c.collision_sound old).addField
    · exact newSlot
  · intro t bound
    rcases lt_addField_cases bound with old | rfl
    · rw [fieldAt_addField_of_lt old]
      exact (c.covered t old).imp sigToSlot_addField_of_some mem_collisionSlots_addField_of_mem
    · rw [fieldAt_addField_new room]
      exact addField_covers

theorem Registering.addField (reg : r.Registering) (fresh : p ∉ r.fields) (room : r.fields.length < 255) :
    (r.addField p (fieldSignature p) r.fields.length.toUInt8).Registering := by
  -- an entry of the old nested lists keeps its path
  have lift : ∀ {t pre}, (t, pre) ∈ r.nestedSlots.zip r.nestedPrefixes →
      t.toNat < (r.addField p (fieldSignature p) r.fields.length.toUInt8).fields.length ∧
        ∃ before after, splitAtDot ((r.addField p (fieldSignature p) r.fields.length.toUInt8).fieldAt t).toList =
          some (before, after) ∧ pre = String.ofList before := by
    intro t pre member
    obtain ⟨bound, split⟩ := reg.nested_sound member
    rw [fieldAt_addField_of_lt bound, addField_fields, List.length_append]
    exact ⟨Nat.lt_add_right _ bound, split⟩
  refine { reg.toConsistent.addField fresh room with
    nested_length := ?_, nested_sound := ?_, nested_complete := ?_
    prefixSigs_empty := reg.prefixSigs_empty, not_finalized := reg.not_finalized }
  · cases dotted : splitAtDot p.toList <;> simp [Registry.addField, dotted, reg.nested_length]
  · intro t pre member
    cases dotted : splitAtDot p.toList with
    | none =>
        rw [addField_zip_of_none dotted] at member
        exact lift member
    | some split =>
        rw [addField_zip_of_some reg.nested_length dotted, List.mem_append, List.mem_singleton] at member
        rcases member with old | new
        · exact lift old
        · obtain ⟨rfl, rfl⟩ := Prod.mk.inj new
          rw [fieldAt_addField_new room]
          exact ⟨new_lt_addField room, split.1, split.2, dotted, rfl⟩
  · intro t bound before after split
    rcases lt_addField_cases bound with old | rfl
    · rw [fieldAt_addField_of_lt old] at split
      have listed := reg.nested_complete t old split
      cases dotted : splitAtDot p.toList with
      | none => rwa [addField_zip_of_none dotted]
      | some _ =>
          rw [addField_zip_of_some reg.nested_length dotted]
          exact List.mem_append_left _ listed
    · rw [fieldAt_addField_new room] at split
      rw [addField_zip_of_some reg.nested_length split]
      exact List.mem_append_right _ (List.mem_singleton_self _)

end AddField

/-- What `registerField` can do during registration: hand back a registered path's index, add a
new path in the next slot while there is room, or refuse. -/
theorem Registering.registerField_cases (reg : r.Registering) (p : String) :
    p ∈ r.fields ∧ r.registerField p = (r, (r.fields.idxOf p).toUInt8) ∨
      p ∉ r.fields ∧ r.fields.length < 255 ∧
        r.registerField p = (r.addField p (fieldSignature p) r.fields.length.toUInt8, r.fields.length.toUInt8) ∨
      p ∉ r.fields ∧ ¬r.fields.length < 255 ∧ r.registerField p = (r, kInvalidSlot) := by
  rw [registerField_eq reg.not_finalized reg.toConsistent p]
  by_cases mem : p ∈ r.fields
  · exact .inl ⟨mem, if_pos mem⟩
  · by_cases room : r.fields.length < 255
    · exact .inr (.inl ⟨mem, room, by rw [if_neg mem, if_pos room]⟩)
    · exact .inr (.inr ⟨mem, room, by rw [if_neg mem, if_neg room]⟩)

theorem Registering.registerField (reg : r.Registering) (p : String) : (r.registerField p).1.Registering := by
  rcases reg.registerField_cases p with ⟨_, same⟩ | ⟨fresh, room, added⟩ | ⟨_, _, refused⟩
  · rw [same]
    exact reg
  · rw [added]
    exact reg.addField fresh room
  · rw [refused]
    exact reg

theorem Registering.registerFields (reg : r.Registering) (fields : List String) :
    (r.registerFields fields).1.Registering := by
  induction fields generalizing r with
  | nil => exact reg
  | cons f rest ih => exact ih (reg.registerField f)

theorem Registering.register (reg : r.Registering) (call : Registration) : (r.register call).Registering := by
  cases call with
  | field fieldPath => exact reg.registerField fieldPath
  | index indexName fields => exact { reg.registerFields fields with }
  | digest digestName fields => exact { reg.registerFields fields with }

theorem registering_empty : empty.Registering where
  nodup := List.nodup_nil
  length_le := Nat.zero_le _
  isNested_eq := rfl
  sigToSlot_sound := fun table => by cases table
  collision_sound := fun listed => by cases listed
  covered := fun _ bound => absurd bound (Nat.not_lt_zero _)
  nested_length := rfl
  nested_sound := fun member => by cases member
  nested_complete := fun _ bound => absurd bound (Nat.not_lt_zero _)
  prefixSigs_empty := fun _ => rfl
  not_finalized := rfl

end Registry

theorem registering_registered (calls : List Registration) : (registered calls).registry.Registering :=
  StepSystem.foldl_invariant Registry.Registering Registry.register calls
    (fun _ call _ reg => reg.register call) _ Registry.registering_empty

/-! ### Finalize -/

/-- What `extract` needs of the tables: consistent, and the prefix table listing under a
signature exactly the dotted paths whose first piece has it. -/
structure Registry.Ready (r : Registry) : Prop extends r.Consistent where
  prefix_sound : ∀ {sig slot}, slot ∈ r.nestedPrefixSigs sig →
    slot.toNat < r.fields.length ∧
      ∃ before after, splitAtDot (r.fieldAt slot).toList = some (before, after) ∧
        fieldSignature (String.ofList before) = sig
  prefix_complete : ∀ slot : UInt8, slot.toNat < r.fields.length → ∀ {before after},
    splitAtDot (r.fieldAt slot).toList = some (before, after) →
      slot ∈ r.nestedPrefixSigs (fieldSignature (String.ofList before))

theorem mem_addPrefixSig {table : UInt32 → List UInt8} {entry : UInt8 × String} {sig : UInt32} {slot : UInt8} :
    slot ∈ addPrefixSig table entry sig ↔ slot ∈ table sig ∨ slot = entry.1 ∧ fieldSignature entry.2 = sig := by
  unfold addPrefixSig
  by_cases same : sig = fieldSignature entry.2
  · subst same
    rw [Function.update_self, List.mem_append, List.mem_singleton, and_iff_left rfl]
  · rw [Function.update_of_ne same]
    exact ⟨.inl, fun held => held.resolve_right fun added => same added.2.symm⟩

/-- The prefix table `finalize` builds holds what it held and the slot of every entry under the
signature of the entry's prefix. -/
theorem mem_foldl_addPrefixSig (entries : List (UInt8 × String)) (table : UInt32 → List UInt8)
    {sig : UInt32} {slot : UInt8} :
    slot ∈ entries.foldl addPrefixSig table sig ↔
      slot ∈ table sig ∨ ∃ pre, (slot, pre) ∈ entries ∧ fieldSignature pre = sig := by
  induction entries generalizing table with
  | nil => simp
  | cons entry rest ih =>
      rw [List.foldl_cons, ih, mem_addPrefixSig]
      constructor
      · rintro ((old | ⟨rfl, signed⟩) | ⟨pre, later, signed⟩)
        · exact .inl old
        · exact .inr ⟨entry.2, List.mem_cons_self, signed⟩
        · exact .inr ⟨pre, List.mem_cons_of_mem _ later, signed⟩
      · rintro (old | ⟨pre, member, signed⟩)
        · exact .inl (.inl old)
        · rcases List.mem_cons.mp member with first | later
          · subst first
            exact .inl (.inr ⟨rfl, signed⟩)
          · exact .inr ⟨pre, later, signed⟩

theorem length_resize {α : Type} (l : List α) (n : Nat) (value : α) : (resize l n value).length = n := by
  simp only [resize, List.length_append, List.length_take, List.length_replicate]
  omega

theorem Registry.Registering.ready_finalize {x : UnifiedFieldExtractor} (reg : x.registry.Registering) :
    x.finalize.registry.Ready := by
  refine { reg.toConsistent with prefix_sound := ?_, prefix_complete := ?_ }
  · intro sig slot listed
    rcases (mem_foldl_addPrefixSig _ _).mp listed with none | ⟨pre, member, signed⟩
    · rw [reg.prefixSigs_empty] at none
      cases none
    · obtain ⟨bound, before, after, split, rfl⟩ := reg.nested_sound member
      exact ⟨bound, before, after, split, signed⟩
  · intro slot bound before after split
    exact (mem_foldl_addPrefixSig _ _).mpr (.inr ⟨_, reg.nested_complete slot bound split, rfl⟩)

theorem length_slots_finalize (x : UnifiedFieldExtractor) :
    x.finalize.extraction.slots.length = x.finalize.registry.fields.length :=
  length_resize _ _ _

theorem length_hasArrayAlongPath_finalize (x : UnifiedFieldExtractor) :
    x.finalize.extraction.hasArrayAlongPath.length = x.finalize.registry.fields.length :=
  length_resize _ _ _

/-! ### One element of `extract` -/

theorem getD_set_of_lt {α : Type} {l : List α} {i j : Nat} (v d : α) (bound : j < l.length) :
    (l.set i v).getD j d = if i = j then v else l.getD j d := by
  rw [List.getD_eq_getElem?_getD, List.getElem?_set, List.getD_eq_getElem?_getD]
  split
  · rw [if_pos (by omega)]
    rfl
  · rfl

theorem Extraction.get_set {ex : Extraction} {slot t : UInt8} (v : Option Located)
    (bound : t.toNat < ex.slots.length) (hasArray : List Bool) (count : Nat) :
    (⟨ex.slots.set slot.toNat v, hasArray, count⟩ : Extraction).get t = if slot = t then v else ex.get t := by
  simp only [Extraction.get, getD_set_of_lt v none bound, UInt8.toNat_inj]

section Element

variable {r : Registry} {ex : Extraction} {e : Located} {sig : UInt32} {t : UInt8}

@[simp] theorem length_fastPath : (fastPath r ex e sig).slots.length = ex.slots.length := by
  unfold fastPath
  split
  · split <;> simp
  · rfl

@[simp] theorem length_collisionPath : (collisionPath r ex e sig).slots.length = ex.slots.length := by
  unfold collisionPath
  split <;> simp

@[simp] theorem length_fillNested (slot : UInt8) : (fillNested r e ex slot).slots.length = ex.slots.length := by
  unfold fillNested
  split <;> simp

theorem length_foldl_fillNested (slots : List UInt8) :
    (slots.foldl (fillNested r e) ex).slots.length = ex.slots.length := by
  induction slots generalizing ex with
  | nil => rfl
  | cons slot rest ih => rw [List.foldl_cons, ih, length_fillNested]

@[simp] theorem length_nestedPath : (nestedPath r ex e sig).slots.length = ex.slots.length := by
  unfold nestedPath
  split
  · exact length_foldl_fillNested _
  · rfl

@[simp] theorem length_extractElement : (extractElement r ex e).slots.length = ex.slots.length := by
  simp [extractElement]

theorem get_fastPath (bound : t.toNat < ex.slots.length) :
    (fastPath r ex e sig).get t =
      if r.sigToSlot sig = some t ∧ r.isTopLevelField e.name t = true then some e else ex.get t := by
  cases table : r.sigToSlot sig with
  | none => simp [fastPath, table]
  | some slot =>
      simp only [fastPath, table]
      by_cases top : r.isTopLevelField e.name slot = true
      · rw [if_pos top, Extraction.get_set _ bound]
        by_cases same : slot = t
        · subst same
          simp [top]
        · simp [same]
      · rw [if_neg top]
        by_cases same : slot = t
        · subst same
          simp [top]
        · simp [same]

theorem get_collisionPath (bound : t.toNat < ex.slots.length) :
    (collisionPath r ex e sig).get t =
      if (r.collisionSlots sig).find? (r.isTopLevelField e.name) = some t then some e else ex.get t := by
  unfold collisionPath
  cases found : (r.collisionSlots sig).find? (r.isTopLevelField e.name) with
  | none => simp
  | some slot =>
      rw [Extraction.get_set _ bound]
      simp

/-- A slot of the prefix list keeps what it holds and otherwise takes what the element yields
for its path. -/
theorem get_fillNested (bound : t.toNat < ex.slots.length) (slot : UInt8) :
    (fillNested r e ex slot).get t =
      if slot = t then (ex.get t).or (nestedExtraction (r.fieldAt t) e).1 else ex.get t := by
  unfold fillNested
  split
  · rename_i empty
    rw [Extraction.get_set _ bound]
    by_cases same : slot = t
    · subst same
      rw [if_pos rfl, if_pos rfl, Option.isNone_iff_eq_none.mp empty, Option.none_or]
    · rw [if_neg same, if_neg same]
  · rename_i held
    by_cases same : slot = t
    · subst same
      cases holds : ex.get slot with
      | none => simp [holds] at held
      | some found => rw [if_pos rfl, Option.some_or]
    · rw [if_neg same]

theorem get_foldl_fillNested (slots : List UInt8) (bound : t.toNat < ex.slots.length) :
    (slots.foldl (fillNested r e) ex).get t =
      if t ∈ slots then (ex.get t).or (nestedExtraction (r.fieldAt t) e).1 else ex.get t := by
  induction slots generalizing ex with
  | nil => simp
  | cons slot rest ih =>
      rw [List.foldl_cons, ih (by rwa [length_fillNested]), get_fillNested bound]
      by_cases same : slot = t
      · subst same
        by_cases later : slot ∈ rest <;> simp [later, Option.or_assoc, Option.or_self]
      · simp [same, Ne.symm same]

theorem get_nestedPath (bound : t.toNat < ex.slots.length) :
    (nestedPath r ex e sig).get t =
      if (e.value.type == .object || e.value.type == .array) = true ∧ t ∈ r.nestedPrefixSigs sig then
        (ex.get t).or (nestedExtraction (r.fieldAt t) e).1
      else ex.get t := by
  unfold nestedPath
  split
  · rename_i holder
    rw [get_foldl_fillNested _ bound]
    simp [holder]
  · rename_i scalar
    simp [scalar]

/-- The two top-level branches write only a slot holding a top-level field of the element's
name. -/
theorem get_topLevelBranches_of_not (bound : t.toNat < ex.slots.length)
    (other : ¬r.isTopLevelField e.name t = true) :
    (collisionPath r (fastPath r ex e sig) e sig).get t = ex.get t := by
  have notCollision : ¬(r.collisionSlots sig).find? (r.isTopLevelField e.name) = some t :=
    fun search => other (List.find?_some search)
  have notFast : ¬(r.sigToSlot sig = some t ∧ r.isTopLevelField e.name t = true) := fun held => other held.2
  rw [get_collisionPath (by simpa using bound), get_fastPath bound, if_neg notCollision, if_neg notFast]

end Element

namespace Registry

variable {r : Registry} {t : UInt8}

theorem Consistent.isTopLevelField_iff (c : r.Consistent) (bound : t.toNat < r.fields.length) {name : String} :
    r.isTopLevelField name t = true ↔ splitAtDot (r.fieldAt t).toList = none ∧ r.fieldAt t = name := by
  have nested : r.isNested.getD t.toNat false = (splitAtDot (r.fieldAt t).toList).isSome := by
    rw [c.isNested_eq, List.getD_eq_getElem _ _ (by rw [List.length_map]; exact bound), List.getElem_map,
      fieldAt, List.getD_eq_getElem _ _ bound]
  rw [isTopLevelField, nested, Bool.and_eq_true, Bool.not_eq_true', Option.isSome_eq_false_iff,
    Option.isNone_iff_eq_none, beq_iff_eq]

theorem Consistent.find_topLevel (c : r.Consistent) {sig : UInt32} {name : String}
    (found : (r.collisionSlots sig).find? (r.isTopLevelField name) = some t) :
    t.toNat < r.fields.length ∧ splitAtDot (r.fieldAt t).toList = none ∧ r.fieldAt t = name := by
  have bound := (c.collision_sound (List.mem_of_find?_eq_some found)).1
  exact ⟨bound, (c.isTopLevelField_iff bound).mp (List.find?_some found)⟩

/-- A dotted path is listed under a signature exactly when its first piece has it. -/
theorem Ready.mem_nestedPrefixSigs_iff (ready : r.Ready) (bound : t.toNat < r.fields.length)
    {before after : List Char} (dotted : splitAtDot (r.fieldAt t).toList = some (before, after)) {sig : UInt32} :
    t ∈ r.nestedPrefixSigs sig ↔ fieldSignature (String.ofList before) = sig := by
  constructor
  · intro listed
    obtain ⟨_, before', after', split, signed⟩ := ready.prefix_sound listed
    rw [dotted, Option.some.injEq, Prod.mk.injEq] at split
    rw [split.1]
    exact signed
  · rintro rfl
    exact ready.prefix_complete t bound dotted

/-- A path without a dot is listed under no signature. -/
theorem Ready.not_mem_nestedPrefixSigs (ready : r.Ready) (top : splitAtDot (r.fieldAt t).toList = none)
    (sig : UInt32) : t ∉ r.nestedPrefixSigs sig := fun listed => by
  obtain ⟨_, before, after, split, _⟩ := ready.prefix_sound listed
  rw [top] at split
  cases split

/-- A dotted path is no top-level field, whatever the name. -/
theorem Consistent.not_isTopLevelField (c : r.Consistent) (bound : t.toNat < r.fields.length)
    {before after : List Char} (dotted : splitAtDot (r.fieldAt t).toList = some (before, after)) (name : String) :
    ¬r.isTopLevelField name t = true := fun topLevel => by
  rw [((c.isTopLevelField_iff bound).mp topLevel).1] at dotted
  cases dotted

end Registry

section Element

variable {r : Registry} {ex : Extraction} {t : UInt8}

theorem length_foldl_extractElement (elements : List Located) :
    (elements.foldl (extractElement r) ex).slots.length = ex.slots.length := by
  induction elements generalizing ex with
  | nil => rfl
  | cons e rest ih => rw [List.foldl_cons, ih, length_extractElement]

/-- A path without a dot takes every element of its name, from either top-level branch, and
nothing else. -/
theorem Registry.Ready.get_extractElement_of_top (ready : r.Ready) (length : ex.slots.length = r.fields.length)
    (bound : t.toNat < r.fields.length) (top : splitAtDot (r.fieldAt t).toList = none) (e : Located) :
    (extractElement r ex e).get t = if e.name = r.fieldAt t then some e else ex.get t := by
  have inSlots : t.toNat < ex.slots.length := length ▸ bound
  simp only [extractElement]
  rw [get_nestedPath (by simpa using inSlots), if_neg (fun held => ready.not_mem_nestedPrefixSigs top _ held.2)]
  by_cases named : e.name = r.fieldAt t
  · have topLevel : r.isTopLevelField e.name t = true := (ready.isTopLevelField_iff bound).mpr ⟨top, named.symm⟩
    rw [get_collisionPath (by simpa using inSlots), get_fastPath inSlots, if_pos named]
    rcases ready.covered t bound with inTable | inList
    · -- the fast path takes it
      rw [← named] at inTable
      have fast : r.sigToSlot (fieldSignature e.name) = some t ∧ r.isTopLevelField e.name t = true :=
        ⟨inTable, topLevel⟩
      rw [if_pos fast, ite_self]
    · -- the collision list takes it: its first top-level field of that name is this slot
      rw [← named] at inList
      obtain ⟨found, search⟩ := Option.isSome_iff_exists.mp (List.find?_isSome.mpr ⟨t, inList, topLevel⟩)
      obtain ⟨foundBound, _, foundName⟩ := ready.find_topLevel search
      have same : found = t := by
        rw [ready.slot_eq foundBound foundName, ready.slot_eq bound named.symm]
      rw [search, same, if_pos rfl]
  · have other : ¬r.isTopLevelField e.name t = true := fun topLevel =>
      named ((ready.isTopLevelField_iff bound).mp topLevel).2.symm
    rw [if_neg named, get_topLevelBranches_of_not inSlots other]

/-- A dotted path is passed by both top-level branches and takes the element's candidate when it
still holds EOO. -/
theorem Registry.Ready.get_extractElement_of_nested (ready : r.Ready) (length : ex.slots.length = r.fields.length)
    (bound : t.toNat < r.fields.length) {before after : List Char}
    (dotted : splitAtDot (r.fieldAt t).toList = some (before, after)) (e : Located) :
    (extractElement r ex e).get t =
      (ex.get t).or (prefixCandidate (fieldSignature (String.ofList before)) (r.fieldAt t) e) := by
  have inSlots : t.toNat < ex.slots.length := length ▸ bound
  simp only [extractElement]
  rw [get_nestedPath (by simpa using inSlots),
    get_topLevelBranches_of_not inSlots (ready.not_isTopLevelField bound dotted e.name), prefixCandidate]
  simp only [ready.mem_nestedPrefixSigs_iff bound dotted]
  have agree : ((e.value.type == .object || e.value.type == .array) &&
        fieldSignature e.name == fieldSignature (String.ofList before)) = true ↔
      (e.value.type == .object || e.value.type == .array) = true ∧
        fieldSignature (String.ofList before) = fieldSignature e.name := by
    rw [Bool.and_eq_true, beq_iff_eq, eq_comm (a := fieldSignature e.name)]
  by_cases fires : (e.value.type == .object || e.value.type == .array) = true ∧
      fieldSignature (String.ofList before) = fieldSignature e.name
  · rw [if_pos fires, if_pos (agree.mpr fires)]
  · rw [if_neg fires, if_neg (fun fired => fires (agree.mp fired)), Option.or_none]

/-- Over a run of elements, a path without a dot ends at the last element of its name. -/
theorem Registry.Ready.get_foldl_of_top (ready : r.Ready) (length : ex.slots.length = r.fields.length)
    (bound : t.toNat < r.fields.length) (top : splitAtDot (r.fieldAt t).toList = none) (elements : List Located) :
    (elements.foldl (extractElement r) ex).get t =
      ((elements.filter fun e => e.name == r.fieldAt t).getLast?).or (ex.get t) := by
  induction elements using List.reverseRecOn with
  | nil => simp
  | append_singleton earlier e ih =>
      have grown : (earlier.foldl (extractElement r) ex).slots.length = r.fields.length := by
        rw [length_foldl_extractElement, length]
      rw [List.foldl_append, List.foldl_cons, List.foldl_nil, ready.get_extractElement_of_top grown bound top, ih,
        List.filter_append]
      by_cases named : e.name = r.fieldAt t <;> simp [named]

/-- Over a run of elements, a dotted path ends at the first candidate that yields something. -/
theorem Registry.Ready.get_foldl_of_nested (ready : r.Ready) (length : ex.slots.length = r.fields.length)
    (bound : t.toNat < r.fields.length) {before after : List Char}
    (dotted : splitAtDot (r.fieldAt t).toList = some (before, after)) (elements : List Located) :
    (elements.foldl (extractElement r) ex).get t =
      (ex.get t).or (elements.findSome? (prefixCandidate (fieldSignature (String.ofList before)) (r.fieldAt t))) := by
  induction elements using List.reverseRecOn with
  | nil => simp
  | append_singleton earlier e ih =>
      have grown : (earlier.foldl (extractElement r) ex).slots.length = r.fields.length := by
        rw [length_foldl_extractElement, length]
      rw [List.foldl_append, List.foldl_cons, List.foldl_nil, ready.get_extractElement_of_nested grown bound dotted,
        ih, List.findSome?_append, List.findSome?_singleton, Option.or_assoc]

end Element

/-- After `extract`, every slot of a finalized extractor holds `extractedValue` of its path. -/
theorem UnifiedFieldExtractor.get_extract {x : UnifiedFieldExtractor} (ready : x.registry.Ready)
    (length : x.extraction.slots.length = x.registry.fields.length) {t : UInt8}
    (bound : t.toNat < x.registry.fields.length) (doc : BSONObj) :
    (x.extract doc).get t = extractedValue doc (x.registry.fieldAt t) := by
  let cleared : Extraction :=
    ⟨x.extraction.slots.map fun _ => none, x.extraction.hasArrayAlongPath.map fun _ => false, 0⟩
  have clearedLength : cleared.slots.length = x.registry.fields.length := by
    rw [List.length_map, length]
  have empty : cleared.get t = none := by
    simp only [cleared, Extraction.get, List.getD_eq_getElem?_getD, List.getElem?_map]
    cases x.extraction.slots[t.toNat]? <;> rfl
  show ((locateFrom 4 doc).foldl (extractElement x.registry) cleared).get t = _
  unfold extractedValue
  cases split : splitAtDot (x.registry.fieldAt t).toList with
  | none => rw [ready.get_foldl_of_top clearedLength bound split, empty, Option.or_none]
  | some pieces => rw [ready.get_foldl_of_nested clearedLength bound split, empty, Option.none_or]

/-! ### The array flags of `extract` -/

section Flags

variable {r : Registry} {ex : Extraction} {e : Located} {sig : UInt32} {t : UInt8}

theorem prefixCandidate_eq (prefixSig : UInt32) (path : String) (e : Located) :
    prefixCandidate prefixSig path e = if prefixApplies prefixSig e then (nestedExtraction path e).1 else none :=
  rfl

@[simp] theorem hasArrayAlongPath_fastPath : (fastPath r ex e sig).hasArrayAlongPath = ex.hasArrayAlongPath := by
  unfold fastPath
  split
  · split <;> rfl
  · rfl

@[simp] theorem hasArrayAlongPath_collisionPath :
    (collisionPath r ex e sig).hasArrayAlongPath = ex.hasArrayAlongPath := by
  unfold collisionPath
  split <;> rfl

@[simp] theorem length_hasArrayAlongPath_fillNested (slot : UInt8) :
    (fillNested r e ex slot).hasArrayAlongPath.length = ex.hasArrayAlongPath.length := by
  unfold fillNested
  split
  · dsimp only
    split <;> simp
  · rfl

theorem length_hasArrayAlongPath_foldl_fillNested (slots : List UInt8) :
    (slots.foldl (fillNested r e) ex).hasArrayAlongPath.length = ex.hasArrayAlongPath.length := by
  induction slots generalizing ex with
  | nil => rfl
  | cons slot rest ih => rw [List.foldl_cons, ih, length_hasArrayAlongPath_fillNested]

@[simp] theorem length_hasArrayAlongPath_extractElement :
    (extractElement r ex e).hasArrayAlongPath.length = ex.hasArrayAlongPath.length := by
  simp only [extractElement, nestedPath]
  split
  · rw [length_hasArrayAlongPath_foldl_fillNested, hasArrayAlongPath_collisionPath, hasArrayAlongPath_fastPath]
  · rw [hasArrayAlongPath_collisionPath, hasArrayAlongPath_fastPath]

/-- A slot of the prefix list still EOO takes the flag of its extraction. -/
theorem flag_fillNested (bound : t.toNat < ex.hasArrayAlongPath.length) (slot : UInt8) :
    (fillNested r e ex slot).hasArrayAlongPath.getD t.toNat false =
      if slot = t ∧ (ex.get t).isNone = true then
        (ex.hasArrayAlongPath.getD t.toNat false || (nestedExtraction (r.fieldAt t) e).2)
      else ex.hasArrayAlongPath.getD t.toNat false := by
  unfold fillNested
  by_cases same : slot = t
  · subst same
    by_cases empty : (ex.get slot).isNone = true
    · rw [if_pos empty, if_pos ⟨rfl, empty⟩]
      dsimp only
      split
      · rename_i flagged
        rw [getD_set_of_lt _ _ bound, if_pos rfl, flagged, Bool.or_true]
      · rename_i unflagged
        rw [Bool.not_eq_true] at unflagged
        rw [unflagged, Bool.or_false]
    · rw [if_neg empty, if_neg (fun held => empty held.2)]
  · have notHere : ¬(slot = t ∧ (ex.get t).isNone = true) := fun held => same held.1
    rw [if_neg notHere]
    split
    · dsimp only
      split
      · rw [getD_set_of_lt _ _ bound, if_neg (fun eq => same (UInt8.toNat_inj.mp eq))]
      · rfl
    · rfl

theorem flag_foldl_fillNested (slots : List UInt8) (slotBound : t.toNat < ex.slots.length)
    (flagBound : t.toNat < ex.hasArrayAlongPath.length) :
    (slots.foldl (fillNested r e) ex).hasArrayAlongPath.getD t.toNat false =
      if t ∈ slots ∧ (ex.get t).isNone = true then
        (ex.hasArrayAlongPath.getD t.toNat false || (nestedExtraction (r.fieldAt t) e).2)
      else ex.hasArrayAlongPath.getD t.toNat false := by
  induction slots generalizing ex with
  | nil => simp
  | cons slot rest ih =>
      rw [List.foldl_cons, ih (by rwa [length_fillNested]) (by rwa [length_hasArrayAlongPath_fillNested]),
        flag_fillNested flagBound, get_fillNested slotBound]
      by_cases same : slot = t
      · subst same
        cases held : ex.get slot <;> by_cases later : slot ∈ rest <;> simp [later]
      · simp [same, Ne.symm same]

theorem flag_nestedPath (slotBound : t.toNat < ex.slots.length) (flagBound : t.toNat < ex.hasArrayAlongPath.length) :
    (nestedPath r ex e sig).hasArrayAlongPath.getD t.toNat false =
      if (e.value.type == .object || e.value.type == .array) = true ∧ t ∈ r.nestedPrefixSigs sig ∧
          (ex.get t).isNone = true then
        (ex.hasArrayAlongPath.getD t.toNat false || (nestedExtraction (r.fieldAt t) e).2)
      else ex.hasArrayAlongPath.getD t.toNat false := by
  unfold nestedPath
  split
  · rename_i holder
    rw [flag_foldl_fillNested _ slotBound flagBound]
    simp [holder]
  · rename_i scalar
    simp [scalar]

end Flags

section FlagRuns

variable {r : Registry} {ex : Extraction} {t : UInt8}

/-- A path without a dot is never flagged. -/
theorem Registry.Ready.flag_extractElement_of_top (ready : r.Ready) (length : ex.slots.length = r.fields.length)
    (flagLength : ex.hasArrayAlongPath.length = r.fields.length) (bound : t.toNat < r.fields.length)
    (top : splitAtDot (r.fieldAt t).toList = none) (e : Located) :
    (extractElement r ex e).hasArrayAlongPath.getD t.toNat false = ex.hasArrayAlongPath.getD t.toNat false := by
  simp only [extractElement]
  rw [flag_nestedPath (by simpa [length] using bound) (by simpa [flagLength] using bound),
    if_neg (fun held => ready.not_mem_nestedPrefixSigs top _ held.2.1), hasArrayAlongPath_collisionPath,
    hasArrayAlongPath_fastPath]

/-- A dotted path is flagged by a candidate tried while its slot is still EOO, when that
candidate's extraction stops early. -/
theorem Registry.Ready.flag_extractElement_of_nested (ready : r.Ready) (length : ex.slots.length = r.fields.length)
    (flagLength : ex.hasArrayAlongPath.length = r.fields.length) (bound : t.toNat < r.fields.length)
    {before after : List Char} (dotted : splitAtDot (r.fieldAt t).toList = some (before, after)) (e : Located) :
    (extractElement r ex e).hasArrayAlongPath.getD t.toNat false =
      if prefixApplies (fieldSignature (String.ofList before)) e = true ∧ (ex.get t).isNone = true then
        (ex.hasArrayAlongPath.getD t.toNat false || (nestedExtraction (r.fieldAt t) e).2)
      else ex.hasArrayAlongPath.getD t.toNat false := by
  have inSlots : t.toNat < ex.slots.length := length ▸ bound
  simp only [extractElement]
  rw [flag_nestedPath (by simpa using inSlots) (by simpa [flagLength] using bound),
    get_topLevelBranches_of_not inSlots (ready.not_isTopLevelField bound dotted e.name), hasArrayAlongPath_collisionPath, hasArrayAlongPath_fastPath]
  simp only [ready.mem_nestedPrefixSigs_iff bound dotted, prefixApplies, Bool.and_eq_true, beq_iff_eq,
    eq_comm (a := fieldSignature e.name), and_assoc]

theorem Registry.Ready.flag_foldl_of_top (ready : r.Ready) (length : ex.slots.length = r.fields.length)
    (flagLength : ex.hasArrayAlongPath.length = r.fields.length) (bound : t.toNat < r.fields.length)
    (top : splitAtDot (r.fieldAt t).toList = none) (elements : List Located) :
    (elements.foldl (extractElement r) ex).hasArrayAlongPath.getD t.toNat false =
      ex.hasArrayAlongPath.getD t.toNat false := by
  induction elements generalizing ex with
  | nil => rfl
  | cons e rest ih =>
      rw [List.foldl_cons, ih (by rw [length_extractElement, length])
        (by rw [length_hasArrayAlongPath_extractElement, flagLength]),
        ready.flag_extractElement_of_top length flagLength bound top]

/-- Over a run of elements, a dotted path's flag is `arrayFlagged` from the slot it starts with. -/
theorem Registry.Ready.flag_foldl_of_nested (ready : r.Ready) (length : ex.slots.length = r.fields.length)
    (flagLength : ex.hasArrayAlongPath.length = r.fields.length) (bound : t.toNat < r.fields.length)
    {before after : List Char} (dotted : splitAtDot (r.fieldAt t).toList = some (before, after))
    (elements : List Located) :
    (elements.foldl (extractElement r) ex).hasArrayAlongPath.getD t.toNat false =
      (ex.hasArrayAlongPath.getD t.toNat false ||
        ((ex.get t).isNone && arrayFlagged (fieldSignature (String.ofList before)) (r.fieldAt t) elements)) := by
  induction elements generalizing ex with
  | nil => simp [arrayFlagged]
  | cons e rest ih =>
      have grown : (extractElement r ex e).slots.length = r.fields.length := by rw [length_extractElement, length]
      have flagGrown : (extractElement r ex e).hasArrayAlongPath.length = r.fields.length := by
        rw [length_hasArrayAlongPath_extractElement, flagLength]
      rw [List.foldl_cons, ih grown flagGrown, ready.flag_extractElement_of_nested length flagLength bound dotted,
        ready.get_extractElement_of_nested length bound dotted, prefixCandidate_eq, arrayFlagged]
      by_cases applies : prefixApplies (fieldSignature (String.ofList before)) e = true
      · cases held : ex.get t <;> simp [applies, Bool.or_assoc]
      · simp [applies]

end FlagRuns

/-- After `extract`, every slot of a finalized extractor is flagged as `extractedArrayFlag` says. -/
theorem UnifiedFieldExtractor.hasArrayAlongPath_extract {x : UnifiedFieldExtractor} (ready : x.registry.Ready)
    (length : x.extraction.slots.length = x.registry.fields.length)
    (flagLength : x.extraction.hasArrayAlongPath.length = x.registry.fields.length) {t : UInt8}
    (bound : t.toNat < x.registry.fields.length) (doc : BSONObj) :
    (x.extract doc).hasArrayAlongPath t = extractedArrayFlag doc (x.registry.fieldAt t) := by
  let cleared : Extraction :=
    ⟨x.extraction.slots.map fun _ => none, x.extraction.hasArrayAlongPath.map fun _ => false, 0⟩
  have clearedLength : cleared.slots.length = x.registry.fields.length := by
    rw [List.length_map, length]
  have clearedFlagLength : cleared.hasArrayAlongPath.length = x.registry.fields.length := by
    rw [List.length_map, flagLength]
  have empty : cleared.get t = none := by
    simp only [cleared, Extraction.get, List.getD_eq_getElem?_getD, List.getElem?_map]
    cases x.extraction.slots[t.toNat]? <;> rfl
  have unflagged : cleared.hasArrayAlongPath.getD t.toNat false = false := by
    simp only [cleared, List.getD_eq_getElem?_getD, List.getElem?_map]
    cases x.extraction.hasArrayAlongPath[t.toNat]? <;> rfl
  show ((locateFrom 4 doc).foldl (extractElement x.registry) cleared).hasArrayAlongPath.getD t.toNat false = _
  unfold extractedArrayFlag
  cases split : splitAtDot (x.registry.fieldAt t).toList with
  | none => rw [ready.flag_foldl_of_top clearedLength clearedFlagLength bound split, unflagged]
  | some pieces =>
      rw [ready.flag_foldl_of_nested clearedLength clearedFlagLength bound split, unflagged, empty]
      rfl

/-! ### Slots across a run of calls -/

namespace Registry

variable {r : Registry}

theorem fieldAt_of_prefix {r' : Registry} (grown : r.fields <+: r'.fields) {t : UInt8}
    (bound : t.toNat < r.fields.length) : r'.fieldAt t = r.fieldAt t := by
  unfold fieldAt
  rw [List.getD_eq_getElem _ _ bound, List.getD_eq_getElem _ _ (Nat.lt_of_lt_of_le bound grown.length_le),
    grown.getElem bound]

/-- A valid slot `registerField` returns holds the path it registered. -/
theorem Registering.registerField_slot (reg : r.Registering) (p : String)
    (valid : (r.registerField p).2 ≠ kInvalidSlot) :
    (r.registerField p).2.toNat < (r.registerField p).1.fields.length ∧
      (r.registerField p).1.fieldAt (r.registerField p).2 = p := by
  rcases reg.registerField_cases p with ⟨mem, same⟩ | ⟨_, room, added⟩ | ⟨_, _, refused⟩
  · rw [same]
    exact reg.fieldAt_idxOf mem
  · rw [added]
    exact ⟨new_lt_addField room, fieldAt_addField_new room⟩
  · rw [refused] at valid
    exact absurd rfl valid

theorem Registering.fields_prefix_registerField (reg : r.Registering) (p : String) :
    r.fields <+: (r.registerField p).1.fields := by
  rcases reg.registerField_cases p with ⟨_, same⟩ | ⟨_, _, added⟩ | ⟨_, _, refused⟩
  · rw [same]
  · rw [added]
    exact List.prefix_append _ _
  · rw [refused]

theorem Registering.fields_prefix_registerFields (reg : r.Registering) (fields : List String) :
    r.fields <+: (r.registerFields fields).1.fields := by
  induction fields generalizing r with
  | nil => exact List.prefix_refl _
  | cons f rest ih => exact (reg.fields_prefix_registerField f).trans (ih (reg.registerField f))

theorem Registering.fields_prefix_register (reg : r.Registering) (call : Registration) :
    r.fields <+: (r.register call).fields := by
  cases call with
  | field fieldPath => exact reg.fields_prefix_registerField fieldPath
  | index indexName fields => exact reg.fields_prefix_registerFields fields
  | digest digestName fields => exact reg.fields_prefix_registerFields fields

/-- Later calls only append fields, so a slot keeps its path to the end of registration. -/
theorem Registering.fields_prefix_foldl (reg : r.Registering) (calls : List Registration) :
    r.fields <+: (calls.foldl Registry.register r).fields :=
  (StepSystem.foldl_invariant (fun s => s.Registering ∧ r.fields <+: s.fields) Registry.register calls
    (fun _ call _ held => ⟨held.1.register call, held.2.trans (held.1.fields_prefix_register call)⟩)
    r ⟨reg, List.prefix_refl _⟩).2

end Registry

/-! ### Agreement with `getField` -/

theorem getLast?_filter_name {elements : List Located} (distinct : (elements.map Located.name).Nodup)
    (name : String) :
    (elements.filter fun e => e.name == name).getLast? = elements.find? fun e => e.name == name := by
  induction elements with
  | nil => rfl
  | cons e rest ih =>
      rw [List.map_cons, List.nodup_cons] at distinct
      by_cases named : e.name = name
      · -- no later element has the name
        have later : rest.filter (fun e => e.name == name) = [] := List.filter_eq_nil_iff.mpr
          fun other member same => distinct.1 (by
            rw [named, ← beq_iff_eq.mp same]
            exact List.mem_map_of_mem member)
        simp [named, later]
      · simp [named, ih distinct.2]

theorem prefixCandidate_of_signature_ne {prefixSig : UInt32} {path : String} {e : Located}
    (other : fieldSignature e.name ≠ prefixSig) : prefixCandidate prefixSig path e = none := by
  rw [prefixCandidate, if_neg (by simp [other])]

/-- The candidate of the element named by a dotted path's first piece is what `getField` reads
from it. -/
theorem prefixCandidate_of_name {path : String} {before after : List Char}
    (split : splitAtDot path.toList = some (before, after)) {e : Located} (named : e.name = String.ofList before) :
    prefixCandidate (fieldSignature (String.ofList before)) path e =
      match e.value with
      | .object fields => (extractElementAtPathOrArrayAlongPath (e.embedded fields) after).1
      | .array _ => some e
      | .scalar _ => none := by
  obtain ⟨name, value, offset⟩ := e
  simp only at named
  subst named
  cases value with
  | object fields => simp [prefixCandidate, nestedExtraction, split]
  | array items => simp [prefixCandidate, nestedExtraction]
  | scalar value => simp [prefixCandidate, Scalar.type_ne_object, Scalar.type_ne_array]

theorem findSome?_prefixCandidate {elements : List Located} (distinct : (elements.map Located.name).Nodup)
    {pre path : String} (unshared : ∀ e ∈ elements, fieldSignature e.name = fieldSignature pre → e.name = pre) :
    elements.findSome? (prefixCandidate (fieldSignature pre) path) =
      (elements.find? fun e => e.name == pre).bind (prefixCandidate (fieldSignature pre) path) := by
  induction elements with
  | nil => rfl
  | cons e rest ih =>
      rw [List.map_cons, List.nodup_cons] at distinct
      have restUnshared : ∀ e ∈ rest, fieldSignature e.name = fieldSignature pre → e.name = pre :=
        fun other member => unshared other (List.mem_cons_of_mem _ member)
      rw [List.findSome?_cons]
      by_cases named : e.name = pre
      · -- no later element can be a candidate: none has the name, so none has the signature
        have quiet : rest.findSome? (prefixCandidate (fieldSignature pre) path) = none :=
          List.findSome?_eq_none_iff.mpr fun other member =>
            prefixCandidate_of_signature_ne fun signed => distinct.1 (by
              rw [named, ← restUnshared other member signed]
              exact List.mem_map_of_mem member)
        rw [List.find?_cons_of_pos (p := fun e : Located => e.name == pre) (beq_iff_eq.mpr named), Option.bind_some]
        cases prefixCandidate (fieldSignature pre) path e <;> simp [quiet]
      · have unsigned : fieldSignature e.name ≠ fieldSignature pre :=
          fun signed => named (unshared e List.mem_cons_self signed)
        rw [prefixCandidate_of_signature_ne unsigned,
          List.find?_cons_of_neg (p := fun e : Located => e.name == pre) (by simpa using named)]
        exact ih distinct.2 restUnshared

/-- Where no name is repeated among the top-level elements and no other name has the signature
of a dotted path's first piece, the slot's value is `getField`'s. -/
theorem extractedValue_eq_referenceValue {doc : BSONObj} {path : String}
    (distinct : ((locateFrom 4 doc).map Located.name).Nodup)
    (unshared : ∀ before after, splitAtDot path.toList = some (before, after) → ∀ e ∈ locateFrom 4 doc,
      fieldSignature e.name = fieldSignature (String.ofList before) → e.name = String.ofList before) :
    extractedValue doc path = referenceValue doc path := by
  unfold extractedValue referenceValue
  simp only [Embedded.getField, Embedded.elements, Nat.zero_add]
  cases split : splitAtDot path.toList with
  | none => exact getLast?_filter_name distinct path
  | some pieces =>
      obtain ⟨before, after⟩ := pieces
      dsimp only
      rw [findSome?_prefixCandidate distinct (unshared before after split)]
      cases found : (locateFrom 4 doc).find? (fun e => e.name == String.ofList before) with
      | none => rfl
      | some e =>
          have named : e.name = String.ofList before := by simpa using List.find?_some found
          rw [Option.bind_some, prefixCandidate_of_name split named]

/-! ### The extractor after any registration -/

/-- A valid slot `registerField` returns for `p` at any point of a run of calls is a slot of the
finished registration, holding `p`. -/
theorem slot_of_registered (calls more : List Registration) (p : String)
    (valid : ((registered calls).registry.registerField p).2 ≠ kInvalidSlot) :
    ((registered calls).registry.registerField p).2.toNat <
        (registered (calls ++ .field p :: more)).registry.fields.length ∧
      (registered (calls ++ .field p :: more)).registry.fieldAt ((registered calls).registry.registerField p).2 = p := by
  have reg := registering_registered calls
  -- registering `p` is one call of the run; the later calls only append fields
  have run : (registered (calls ++ .field p :: more)).registry =
      more.foldl Registry.register ((registered calls).registry.registerField p).1 := by
    simp only [registered, List.foldl_append, List.foldl_cons]
    rfl
  obtain ⟨bound, named⟩ := reg.registerField_slot p valid
  have grown := Registry.Registering.fields_prefix_foldl (reg.registerField p) more
  rw [← run] at grown
  refine ⟨Nat.lt_of_lt_of_le bound grown.length_le, ?_⟩
  rw [Registry.fieldAt_of_prefix grown bound]
  exact named

theorem extract_keeps_last_element (calls more : List Registration) (p : String) (doc : BSONObj) :
    let slot := ((registered calls).registry.registerField p).2
    let x := registered (calls ++ .field p :: more)
    x.registry.fields.Nodup ∧
      (slot ≠ kInvalidSlot →
        slot.toNat < x.registry.fields.length ∧ x.registry.fieldAt slot = p ∧
          (x.finalize.extract doc).get slot = extractedValue doc p) ∧
      (((locateFrom 4 doc).map Located.name).Nodup →
        (∀ before after, splitAtDot p.toList = some (before, after) → ∀ e ∈ locateFrom 4 doc,
          fieldSignature e.name = fieldSignature (String.ofList before) → e.name = String.ofList before) →
        extractedValue doc p = referenceValue doc p) := by
  intro slot x
  have final : x.registry.Registering := registering_registered _
  refine ⟨final.nodup, fun valid => ?_, fun distinct unshared => extractedValue_eq_referenceValue distinct unshared⟩
  obtain ⟨finalBound, finalNamed⟩ := slot_of_registered calls more p valid
  refine ⟨finalBound, finalNamed, ?_⟩
  rw [← finalNamed]
  exact UnifiedFieldExtractor.get_extract final.ready_finalize (length_slots_finalize x) finalBound doc

/-- A document with two elements named `a`. -/
def duplicateName : BSONObj :=
  [("a", .scalar (.numberInt 1)), ("a", .scalar (.numberInt 2))]

/-- A document whose first `q` is a number and whose second holds `{r: 5}`. -/
def duplicatePrefix : BSONObj :=
  [("q", .scalar (.numberInt 1)), ("q", .object [("r", .scalar (.numberInt 5))])]

theorem extract_keeps_last_element_duplicateName :
    ((registered [.field "a"]).finalize.extract duplicateName).get 0 =
        some ⟨"a", .scalar (.numberInt 2), 11⟩ ∧
      referenceValue duplicateName "a" = some ⟨"a", .scalar (.numberInt 1), 4⟩ ∧
      ((registered [.field "q.r"]).finalize.extract duplicatePrefix).get 0 =
        some ⟨"r", .scalar (.numberInt 5), 18⟩ ∧
      referenceValue duplicatePrefix "q.r" = none ∧
      extractedValue [("a", .scalar (.numberInt 1))] "a" = referenceValue [("a", .scalar (.numberInt 1))] "a" := by
  have slotA : ((registered []).registry.registerField "a").2 = 0 := by decide
  have validA : ((registered []).registry.registerField "a").2 ≠ kInvalidSlot := by decide
  have slotQ : ((registered []).registry.registerField "q.r").2 = 0 := by decide
  have validQ : ((registered []).registry.registerField "q.r").2 ≠ kInvalidSlot := by decide
  have top : splitAtDot "a".toList = none := by decide
  have readA := ((extract_keeps_last_element [] [] "a" duplicateName).2.1 validA).2.2
  have readQ := ((extract_keeps_last_element [] [] "q.r" duplicatePrefix).2.1 validQ).2.2
  rw [slotA] at readA
  rw [slotQ] at readQ
  have single := (extract_keeps_last_element [] [] "a" [("a", .scalar (.numberInt 1))]).2.2 (by decide)
    (fun before after split => absurd (top.symm.trans split) (by simp))
  exact ⟨readA.trans (by decide), by decide, readQ.trans (by decide), by decide, single⟩

theorem extract_flags_stopped_extraction (calls more : List Registration) (p : String) (doc : BSONObj) :
    let slot := ((registered calls).registry.registerField p).2
    let x := registered (calls ++ .field p :: more)
    slot ≠ kInvalidSlot → (x.finalize.extract doc).hasArrayAlongPath slot = extractedArrayFlag doc p := by
  intro slot x valid
  have final : x.registry.Registering := registering_registered _
  obtain ⟨finalBound, finalNamed⟩ := slot_of_registered calls more p valid
  rw [← finalNamed]
  exact UnifiedFieldExtractor.hasArrayAlongPath_extract final.ready_finalize (length_slots_finalize x)
    (length_hasArrayAlongPath_finalize x) finalBound doc

/-- `{q: {x: 1}}`: no array anywhere, and no `r` inside `q`. -/
def missingMiddle : BSONObj :=
  [("q", .object [("x", .scalar (.numberInt 1))])]

theorem extract_flags_stopped_extraction_missingMiddle :
    ((registered [.field "q.r.s"]).finalize.extract missingMiddle).hasArrayAlongPath 0 = true ∧
      ((registered [.field "q.r.s"]).finalize.extract missingMiddle).get 0 = none := by
  have slotZero : ((registered []).registry.registerField "q.r.s").2 = 0 := by decide
  have valid : ((registered []).registry.registerField "q.r.s").2 ≠ kInvalidSlot := by decide
  have flag := extract_flags_stopped_extraction [] [] "q.r.s" missingMiddle valid
  rw [slotZero] at flag
  exact ⟨flag.trans (by decide), by decide⟩

end FastMongo.Index

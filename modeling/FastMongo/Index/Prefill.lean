import FastMongo.Index.Pattern

/-!
A field filled before `getKeysImplWithArray` runs, with the element that its first loop would
fix for it at the top of the document, changes nothing: the loop skips a done field, and the
fields it does read are independent of the others. This is the step that lets the fast path's
prefill stand for the reference extraction.
-/

namespace FastMongo.Index

open FastMongo.Bson

/-- The first loop's state with field `i` done and fixed to `value`. -/
def ArrayScan.fillAt (scan : ArrayScan) (i : Nat) (value : Value) : ArrayScan :=
  { scan with fieldNames := scan.fieldNames.set i [], fixed := scan.fixed.set i (some value) }

/-- Several fields filled in order. -/
def ArrayScan.applyFills (scan : ArrayScan) (fills : List (Nat × Value)) : ArrayScan :=
  fills.foldl (fun scan fill => scan.fillAt fill.1 fill.2) scan

/-- The first loop's state at the top of `getKeysImplWithArray`. -/
def ArrayScan.start (fieldNames : List (List Char)) (fixed : List (Option Value)) : ArrayScan :=
  ⟨fieldNames, fixed, 0, none, [], true⟩

/-- Field `j` is one that the first loop at the top of `obj` fixes to `value`: its path reaches a
non-array element and ends there. -/
def Fillable (obj : Embedded) (names : List (List Char)) (j : Nat) (value : Value) : Prop :=
  ∃ name e, names[j]? = some name ∧ name ≠ [] ∧
    extractElementAtPathOrArrayAlongPath obj name = (some e, []) ∧ e.value.type ≠ .array ∧
    e.value = value

@[simp] theorem ArrayScan.applyFills_nil (scan : ArrayScan) : scan.applyFills [] = scan := rfl

@[simp] theorem ArrayScan.applyFills_cons (scan : ArrayScan) (fill : Nat × Value)
    (fills : List (Nat × Value)) :
    scan.applyFills (fill :: fills) = (scan.fillAt fill.1 fill.2).applyFills fills := rfl

theorem ArrayScan.applyFills_append (scan : ArrayScan) (fills more : List (Nat × Value)) :
    scan.applyFills (fills ++ more) = (scan.applyFills fills).applyFills more := by
  simp [ArrayScan.applyFills, List.foldl_append]

theorem ArrayScan.fillAt_comm (scan : ArrayScan) {i j : Nat} (differ : i ≠ j) (v w : Value) :
    (scan.fillAt i v).fillAt j w = (scan.fillAt j w).fillAt i v := by
  simp [ArrayScan.fillAt, List.set_comm _ _ differ]

theorem ArrayScan.getD_fillAt_self (scan : ArrayScan) (i : Nat) (value : Value) :
    (scan.fillAt i value).fieldNames.getD i [] = [] := by
  simp only [ArrayScan.fillAt, List.getD_eq_getElem?_getD, List.getElem?_set_self']
  cases scan.fieldNames[i]? <;> rfl

theorem ArrayScan.fieldNames_fillAt_ne (scan : ArrayScan) {i j : Nat} (differ : i ≠ j)
    (value : Value) : (scan.fillAt i value).fieldNames[j]? = scan.fieldNames[j]? := by
  simp [ArrayScan.fillAt, List.getElem?_set_ne differ]

/-- Fills at other indices leave a field's name alone. -/
theorem ArrayScan.fieldNames_applyFills_ne {j : Nat} :
    ∀ (scan : ArrayScan) (fills : List (Nat × Value)), (∀ fill ∈ fills, fill.1 ≠ j) →
      (scan.applyFills fills).fieldNames[j]? = scan.fieldNames[j]?
  | _, [], _ => rfl
  | scan, fill :: fills, away => by
      rw [ArrayScan.applyFills_cons,
        ArrayScan.fieldNames_applyFills_ne _ fills fun other member =>
          away other (List.mem_cons_of_mem _ member),
        ArrayScan.fieldNames_fillAt_ne _ (away fill List.mem_cons_self)]

theorem ArrayScan.fixed_fillAt_ne (scan : ArrayScan) {i j : Nat} (differ : i ≠ j) (value : Value) :
    (scan.fillAt i value).fixed[j]? = scan.fixed[j]? := by
  simp [ArrayScan.fillAt, List.getElem?_set_ne differ]

/-- Fills at other indices leave a field's fixed element alone. -/
theorem ArrayScan.fixed_applyFills_ne {j : Nat} :
    ∀ (scan : ArrayScan) (fills : List (Nat × Value)), (∀ fill ∈ fills, fill.1 ≠ j) →
      (scan.applyFills fills).fixed[j]? = scan.fixed[j]?
  | _, [], _ => rfl
  | scan, fill :: fills, away => by
      rw [ArrayScan.applyFills_cons,
        ArrayScan.fixed_applyFills_ne _ fills fun other member =>
          away other (List.mem_cons_of_mem _ member),
        ArrayScan.fixed_fillAt_ne _ (away fill List.mem_cons_self)]

@[simp] theorem ArrayScan.length_fieldNames_applyFills (scan : ArrayScan)
    (fills : List (Nat × Value)) : (scan.applyFills fills).fieldNames.length = scan.fieldNames.length := by
  induction fills generalizing scan with
  | nil => rfl
  | cons fill fills ih => simp [ih, ArrayScan.fillAt]

/-- The fills left once those of index `i` are taken out are all away from `i`. -/
theorem fst_ne_of_mem_filter {fills : List (Nat × Value)} {i : Nat} :
    ∀ fill ∈ fills.filter (fun fill => fill.1 ≠ i), fill.1 ≠ i :=
  fun fill inside => by simpa using (List.mem_filter.mp inside).2

/-- With distinct indices, the fill of one index can be applied first. -/
theorem ArrayScan.applyFills_extract {i : Nat} {v : Value} :
    ∀ (scan : ArrayScan) (fills : List (Nat × Value)), (fills.map Prod.fst).Nodup →
      (i, v) ∈ fills →
      scan.applyFills fills = (scan.fillAt i v).applyFills (fills.filter fun fill => fill.1 ≠ i)
  | _, [], _, member => by cases member
  | scan, (j, w) :: fills, distinct, member => by
      simp only [List.map_cons, List.nodup_cons, List.mem_map, not_exists, not_and] at distinct
      by_cases same : j = i
      · subst same
        -- the entry with that index is the head, and no later fill has it
        have head : w = v := by
          rcases List.mem_cons.mp member with first | later
          · exact (Prod.mk.inj first).2.symm
          · exact absurd rfl (distinct.1 _ later)
        subst head
        have rest : fills.filter (fun fill => fill.1 ≠ j) = fills :=
          List.filter_eq_self.mpr fun fill inside => by
            simpa using fun equal => distinct.1 fill inside equal
        rw [List.filter_cons_of_neg (by simp), rest, ArrayScan.applyFills_cons]
      · have later : (i, v) ∈ fills := by
          rcases List.mem_cons.mp member with first | later
          · exact absurd (Prod.mk.inj first).1.symm same
          · exact later
        rw [ArrayScan.applyFills_cons, ArrayScan.applyFills_extract _ fills distinct.2 later]
        simp [same, ArrayScan.fillAt_comm _ same]

/-- A fill is fillable by what the name at its index is. -/
theorem Fillable.of_getElem?_eq {obj : Embedded} {names names' : List (List Char)} {j : Nat}
    {value : Value} (same : names'[j]? = names[j]?) (fillable : Fillable obj names j value) :
    Fillable obj names' j value := by
  obtain ⟨name, e, named, rest⟩ := fillable
  exact ⟨name, e, same.trans named, rest⟩

theorem ArrayScan.getD_applyFills_fillAt_self (scan : ArrayScan) {i : Nat} (value : Value)
    {fills : List (Nat × Value)} (away : ∀ fill ∈ fills, fill.1 ≠ i) :
    ((scan.fillAt i value).applyFills fills).fieldNames.getD i [] = [] := by
  rw [List.getD_eq_getElem?_getD, ArrayScan.fieldNames_applyFills_ne _ fills away,
    ← List.getD_eq_getElem?_getD, ArrayScan.getD_fillAt_self]

/-- At the top level no positional element is pending. -/
theorem getD_emptyPositionalInfo (gen : BtreeKeyGeneratorV1) (i : Nat) :
    gen.emptyPositionalInfo.getD i .empty = .empty := by
  simp only [BtreeKeyGeneratorV1.emptyPositionalInfo, List.getD_eq_getElem?_getD,
    List.getElem?_map]
  cases gen.fieldNames[i]? <;> rfl

/-- At the top level, a field whose first piece is present is read along its whole path. -/
theorem extractNextElement_empty (ctx : KeyContext) (obj : Embedded) {field : List Char}
    (present : (obj.getField (String.ofList (beforeDot field))).isSome = true) :
    extractNextElement ctx obj .empty field =
      .ok ((extractElementAtPathOrArrayAlongPath obj field).1,
        (extractElementAtPathOrArrayAlongPath obj field).2, false) := by
  simp [extractNextElement, present, PositionalPathInfo.empty]

/-- Fills of distinct fields can be applied in any order. -/
theorem ArrayScan.applyFills_perm {fills fills' : List (Nat × Value)} (perm : fills.Perm fills')
    (distinct : (fills.map Prod.fst).Nodup) (scan : ArrayScan) :
    scan.applyFills fills = scan.applyFills fills' := by
  induction perm generalizing scan with
  | nil => rfl
  | cons fill _ ih =>
      rw [ArrayScan.applyFills_cons, ArrayScan.applyFills_cons,
        ih (List.nodup_cons.mp distinct).2]
  | swap first second rest =>
      -- the two swapped fills are of different fields
      have differ : second.1 ≠ first.1 := by
        intro same
        simp only [List.map_cons, List.nodup_cons, List.mem_cons, List.mem_map] at distinct
        exact distinct.1 (.inl same)
      rw [ArrayScan.applyFills_cons, ArrayScan.applyFills_cons, ArrayScan.applyFills_cons,
        ArrayScan.applyFills_cons, ArrayScan.fillAt_comm _ differ]
  | trans first _ ih ih' =>
      rw [ih distinct, ih' ((first.map Prod.fst).nodup_iff.mp distinct)]

section Loop

variable (ctx : KeyContext) (obj : Embedded) (positionalInfo : List PositionalPathInfo)

theorem scanField_done {scan : ArrayScan} {i : Nat} (done : scan.fieldNames.getD i [] = []) :
    scanField ctx obj positionalInfo scan i = .ok scan := by
  have empty : (scan.fieldNames.getD i []).isEmpty = true := by rw [done]; rfl
  simp only [scanField, empty, ↓reduceIte]

/-- At the top of the document, the first loop fixes a fillable field to its element. -/
theorem scanField_fillable {scan : ArrayScan} {i : Nat} {value : Value}
    (topLevel : positionalInfo.getD i .empty = .empty)
    (fillable : Fillable obj scan.fieldNames i value) :
    scanField ctx obj positionalInfo scan i = .ok (scan.fillAt i value) := by
  obtain ⟨name, e, named, nonempty, reached, notArray, rfl⟩ := fillable
  have field : scan.fieldNames.getD i [] = name := by simp [List.getD_eq_getElem?_getD, named]
  -- the path's first piece names an element, so `extractNextElement` traverses it
  have present := getField_beforeDot_of_extract reached
  have notEmpty : name.isEmpty = false := by simpa using nonempty
  simp only [scanField, field, topLevel, notEmpty, Bool.false_eq_true, ↓reduceIte,
    extractNextElement_empty ctx obj present, reached]
  simp [notArray, ArrayScan.fillAt]

/-- The first loop at one field commutes with a fill of another. -/
theorem scanField_fillAt_ne {scan : ArrayScan} {i j : Nat} (differ : j ≠ i) (value : Value) :
    scanField ctx obj positionalInfo (scan.fillAt j value) i =
      (scanField ctx obj positionalInfo scan i).map fun scan => scan.fillAt j value := by
  have same : (scan.fillAt j value).fieldNames.getD i [] = scan.fieldNames.getD i [] := by
    simp only [List.getD_eq_getElem?_getD, ArrayScan.fieldNames_fillAt_ne _ differ]
  simp only [scanField, same]
  by_cases empty : (scan.fieldNames.getD i []).isEmpty = true
  · simp only [empty, ↓reduceIte, Except.map]
  · simp only [empty, Bool.false_eq_true, ↓reduceIte]
    cases extracted : extractNextElement ctx obj (positionalInfo.getD i .empty)
        (scan.fieldNames.getD i []) with
    | error status => rfl
    | ok found =>
        obtain ⟨_ | e, rest, nested⟩ := found
        · simp [Except.map, ArrayScan.fillAt, List.set_comm _ _ differ]
        · by_cases isArray : e.value.type = .array
          · cases arrElt : scan.arrElt with
            | none => simp [Except.map, ArrayScan.fillAt, arrElt, isArray, List.set_comm _ _ differ]
            | some other =>
                by_cases sameArray : e.offset = other.offset <;>
                  simp [Except.map, ArrayScan.fillAt, arrElt, isArray, sameArray,
                    List.set_comm _ _ differ]
          · simp [Except.map, ArrayScan.fillAt, isArray, List.set_comm _ _ differ]

/-- The first loop at one field commutes with fills of the others. -/
theorem scanField_applyFills {i : Nat} :
    ∀ (scan : ArrayScan) (fills : List (Nat × Value)), (∀ fill ∈ fills, fill.1 ≠ i) →
      scanField ctx obj positionalInfo (scan.applyFills fills) i =
        (scanField ctx obj positionalInfo scan i).map fun scan => scan.applyFills fills
  | scan, [], _ => by
      rw [ArrayScan.applyFills_nil]
      cases scanField ctx obj positionalInfo scan i <;> rfl
  | scan, fill :: fills, away => by
      have later : ∀ other ∈ fills, other.1 ≠ i := fun other member =>
        away other (List.mem_cons_of_mem _ member)
      rw [ArrayScan.applyFills_cons, scanField_applyFills _ fills later,
        scanField_fillAt_ne ctx obj positionalInfo (away fill List.mem_cons_self)]
      cases scanField ctx obj positionalInfo scan i <;> rfl

/-- The first loop at field `i` leaves the names of the other fields alone. -/
theorem fieldNames_scanField_ne {scan scan' : ArrayScan} {i j : Nat} (differ : i ≠ j)
    (scanned : scanField ctx obj positionalInfo scan i = .ok scan') :
    scan'.fieldNames[j]? = scan.fieldNames[j]? := by
  simp only [scanField] at scanned
  split at scanned
  · cases scanned
    rfl
  · split at scanned
    · cases scanned
    · cases scanned
      exact List.getElem?_set_ne differ
    · split at scanned
      · split at scanned
        · cases scanned
          exact List.getElem?_set_ne differ
        · split at scanned
          · cases scanned
          · cases scanned
            exact List.getElem?_set_ne differ
      · cases scanned
        exact List.getElem?_set_ne differ

/-- The first loop over `indices` from a state with fillable fields filled gives what it gives
from the state before: each filled field is one the loop itself fixes, to the same element. The
induction is on the indices, carrying the fills not yet reached. -/
theorem foldlM_scanField_applyFills (topLevel : ∀ i, positionalInfo.getD i .empty = .empty)
    (indices : List Nat) :
    ∀ (scan : ArrayScan) (fills : List (Nat × Value)), (fills.map Prod.fst).Nodup →
      (∀ fill ∈ fills, fill.1 ∈ indices) →
      (∀ fill ∈ fills, Fillable obj scan.fieldNames fill.1 fill.2) →
      indices.foldlM (scanField ctx obj positionalInfo) (scan.applyFills fills) =
        indices.foldlM (scanField ctx obj positionalInfo) scan := by
  induction indices with
  | nil =>
      intro scan fills _ within _
      have none : fills = [] := List.eq_nil_iff_forall_not_mem.mpr fun fill member =>
        List.not_mem_nil (within fill member)
      rw [none, ArrayScan.applyFills_nil]
  | cons i indices ih =>
      intro scan fills distinct within fillable
      by_cases filled : ∃ value, (i, value) ∈ fills
      · -- the loop fixes field `i` itself, to the value of its fill
        obtain ⟨value, member⟩ := filled
        have away : ∀ fill ∈ fills.filter (fun fill => fill.1 ≠ i), fill.1 ≠ i := fst_ne_of_mem_filter
        have restDistinct : ((fills.filter fun fill => fill.1 ≠ i).map Prod.fst).Nodup :=
          distinct.sublist ((List.filter_sublist).map _)
        have restWithin : ∀ fill ∈ fills.filter (fun fill => fill.1 ≠ i), fill.1 ∈ indices :=
          fun fill inside => ((List.mem_cons.mp (within fill (List.mem_filter.mp inside).1)).resolve_left
            (away fill inside))
        have restFillable : ∀ fill ∈ fills.filter (fun fill => fill.1 ≠ i),
            Fillable obj (scan.fillAt i value).fieldNames fill.1 fill.2 := fun fill inside =>
          Fillable.of_getElem?_eq (ArrayScan.fieldNames_fillAt_ne _ (away fill inside).symm value)
            (fillable fill (List.mem_filter.mp inside).1)
        rw [ArrayScan.applyFills_extract scan fills distinct member, List.foldlM_cons,
          List.foldlM_cons, scanField_done ctx obj positionalInfo
            (ArrayScan.getD_applyFills_fillAt_self scan value away),
          scanField_fillable ctx obj positionalInfo (topLevel i) (fillable _ member)]
        exact ih _ _ restDistinct restWithin restFillable
      · -- no fill at `i`: the step is taken on both sides, and the fills carry over
        have away : ∀ fill ∈ fills, fill.1 ≠ i := by
          rintro ⟨j, w⟩ member rfl
          exact filled ⟨w, member⟩
        have restWithin : ∀ fill ∈ fills, fill.1 ∈ indices := fun fill member =>
          (List.mem_cons.mp (within fill member)).resolve_left (away fill member)
        rw [List.foldlM_cons, List.foldlM_cons,
          scanField_applyFills ctx obj positionalInfo scan fills away]
        cases scanned : scanField ctx obj positionalInfo scan i with
        | error status => rfl
        | ok scan' =>
            have restFillable : ∀ fill ∈ fills, Fillable obj scan'.fieldNames fill.1 fill.2 :=
              fun fill member => Fillable.of_getElem?_eq
                (fieldNames_scanField_ne ctx obj positionalInfo (away fill member).symm scanned)
                (fillable fill member)
            exact ih scan' fills distinct restWithin restFillable

end Loop

theorem getKeysImplWithArray_succ (gen : BtreeKeyGeneratorV1) (ctx : KeyContext) (fuel : Nat)
    (fieldNames : List (List Char)) (fixed : List (Option Value)) (obj : Embedded)
    (positionalInfo : List PositionalPathInfo) (out : KeyOutput) :
    getKeysImplWithArray gen ctx (fuel + 1) fieldNames fixed obj 0 positionalInfo out =
      match (List.range fieldNames.length).foldlM (scanField ctx obj positionalInfo)
          (ArrayScan.start fieldNames fixed) with
      | .error status => .error status
      | .ok scan => expandArray gen ctx (getKeysImplWithArray gen ctx fuel) scan out := rfl

/-- `getKeysImplWithArray` at the top of a document, started on field names and fixed elements
with fillable fields filled, computes what it computes on them unfilled. -/
theorem getKeysImplWithArray_applyFills (gen : BtreeKeyGeneratorV1) (ctx : KeyContext)
    (fuel : Nat) {fieldNames names : List (List Char)} {fixed fixed' : List (Option Value)}
    (obj : Embedded) (out : KeyOutput) {fills : List (Nat × Value)}
    (filled : ArrayScan.start names fixed' = (ArrayScan.start fieldNames fixed).applyFills fills)
    (distinct : (fills.map Prod.fst).Nodup)
    (within : ∀ fill ∈ fills, fill.1 < fieldNames.length)
    (fillable : ∀ fill ∈ fills, Fillable obj fieldNames fill.1 fill.2) :
    getKeysImplWithArray gen ctx (fuel + 1) names fixed' obj 0 gen.emptyPositionalInfo out =
      getKeysImplWithArray gen ctx (fuel + 1) fieldNames fixed obj 0 gen.emptyPositionalInfo out := by
  have length : names.length = fieldNames.length := by
    have named := congrArg (fun scan => scan.fieldNames.length) filled
    simpa [ArrayScan.start] using named
  rw [getKeysImplWithArray_succ, getKeysImplWithArray_succ, length, filled,
    foldlM_scanField_applyFills ctx obj _ (getD_emptyPositionalInfo gen) _ _ fills distinct
      (fun fill member => List.mem_range.mpr (within fill member)) fillable]

end FastMongo.Index

import FastMongo.Integrity.DocumentHash

/-!
What the three paths of `computeDocumentHash` agree on and where they do not. A `_$docHash`
placed after the first element is checked against the hash of the whole stripped document; one
placed first is checked against the hash of the stripped document's element bytes only, without
its size header and terminator.
-/

namespace FastMongo.Integrity

open FastMongo.Bson XXHash

/-- Every `_$docHash` element takes at least eleven bytes: its type byte and the field name. -/
theorem length_elementBytes_hash (value : Value) :
    11 ≤ (elementBytes (kDocHashFieldName, value)).length := by
  have name : (cstring kDocHashFieldName).length = 10 := by decide
  simp [elementBytes, name]

/-- Dropping the `_$docHash` elements shortens the element bytes by nothing or by at least
eleven bytes. -/
theorem length_elementsBytes_withoutHashField (doc : BSONObj) :
    (elementsBytes doc).length = (elementsBytes (withoutHashField doc)).length ∨
      (elementsBytes (withoutHashField doc)).length + 11 ≤ (elementsBytes doc).length := by
  induction doc with
  | nil => simp [withoutHashField]
  | cons elem rest ih =>
      by_cases named : elem.1 = kDocHashFieldName
      · obtain ⟨name, value⟩ := elem
        simp only at named
        subst named
        have dropped : withoutHashField ((kDocHashFieldName, value) :: rest) =
            withoutHashField rest := by simp [withoutHashField]
        have long := length_elementBytes_hash value
        rw [dropped, elementsBytes_cons, List.length_append]
        omega
      · have kept : withoutHashField (elem :: rest) = elem :: withoutHashField rest := by
          simp [withoutHashField, named]
        rw [kept, elementsBytes_cons, elementsBytes_cons, List.length_append, List.length_append]
        omega

/-- The content of the repository's `ComputeHashExcludesHashField` and `VerifyCorrectHash`
tests: `{a: 1, b: "test"}`. -/
def contentAB : BSONObj :=
  [("a", .scalar (.numberInt 1)), ("b", .scalar (.string "test"))]

/-- With `_$docHash` first, the hashed bytes are never the encoding of the stripped document,
whatever follows it; and `{a: 1, b: "test"}` with its own `computeDocumentHash` prepended, as
the repository's tests build it, hashes differently and is rejected. -/
theorem hashFirst_not_stripped_encoding :
    (∀ (value : Value) (rest : BSONObj),
      hashedBytes ((kDocHashFieldName, value) :: rest) ≠
        (stripHashField ((kDocHashFieldName, value) :: rest)).objdata) ∧
    computeDocumentHash (hashElement (computeDocumentHash contentAB) :: contentAB) ≠
      computeDocumentHash contentAB ∧
    ∃ reason, verifyDocumentIntegrity (hashElement (computeDocumentHash contentAB) :: contentAB) =
      .error ⟨.documentIntegrityError, reason⟩ := by
  have differ : computeDocumentHash (hashElement (computeDocumentHash contentAB) :: contentAB) ≠
      computeDocumentHash contentAB := by decide
  refine ⟨?_, differ, verifyDocumentIntegrity_mismatch (getField_hashElement_cons _ _) differ⟩
  intro value rest same
  have stripped : stripHashField ((kDocHashFieldName, value) :: rest) = withoutHashField rest := by
    rw [stripHashField_eq]
    simp [withoutHashField]
  rw [hashedBytes_hashFirst, stripped, BSONObj.objdata] at same
  have lengths := congrArg List.length same
  rw [length_frame] at lengths
  rcases length_elementsBytes_withoutHashField rest with equal | longer <;> omega

theorem hasField_append_eq_false {front back : BSONObj}
    (clean : (front ++ back).hasField kDocHashFieldName = false) :
    front.hasField kDocHashFieldName = false ∧ back.hasField kDocHashFieldName = false := by
  rw [BSONObj.hasField_append] at clean
  exact Bool.or_eq_false_iff.mp clean

/-- A hash inserted after the first element is checked against the whole stripped document:
inserting `NumberLong(computeDocumentHash c)` anywhere but first into a document `c` without the
field gives a document that is accepted and stripped back to `c`. -/
theorem verifyDocumentIntegrity_hash_after_first {front back : BSONObj} (nonempty : front ≠ [])
    (clean : (front ++ back).hasField kDocHashFieldName = false) :
    verifyDocumentIntegrity (front ++ hashElement (computeDocumentHash (front ++ back)) :: back) =
        .ok () ∧
      stripHashField (front ++ hashElement (computeDocumentHash (front ++ back)) :: back) =
        front ++ back := by
  obtain ⟨frontClean, backClean⟩ := hasField_append_eq_false clean
  set hash := computeDocumentHash (front ++ back)
  have stripped : stripHashField (front ++ hashElement hash :: back) = front ++ back := by
    rw [stripHashField_eq, withoutHashField_append, withoutHashField_hashElement,
      withoutHashField_of_not_hasField frontClean, withoutHashField_of_not_hasField backClean]
  obtain ⟨firstElem, frontRest, rfl⟩ := List.exists_cons_of_ne_nil nonempty
  have firstNamed : firstElem.1 ≠ kDocHashFieldName := by
    intro same
    have present : BSONObj.hasField (firstElem :: frontRest) kDocHashFieldName = true :=
      BSONObj.hasField_iff.mpr ⟨firstElem, List.mem_cons_self, same⟩
    rw [frontClean] at present
    cases present
  have recomputed : computeDocumentHash ((firstElem :: frontRest) ++ hashElement hash :: back) =
      hash := by
    rw [computeDocumentHash, List.cons_append, hashedBytes_hashLater firstNamed,
      ← List.cons_append, stripped, ← hashedBytes_of_not_hasField clean]
    rfl
  exact ⟨verifyDocumentIntegrity_ok (getField_hashElement_middle hash back frontClean) recomputed,
    stripped⟩

theorem verifyDocumentIntegrity_hash_after_first_contentAB :
    verifyDocumentIntegrity ([("a", .scalar (.numberInt 1))] ++
        hashElement (computeDocumentHash contentAB) :: [("b", .scalar (.string "test"))]) = .ok () ∧
      stripHashField ([("a", .scalar (.numberInt 1))] ++
        hashElement (computeDocumentHash contentAB) :: [("b", .scalar (.string "test"))]) =
        contentAB :=
  verifyDocumentIntegrity_hash_after_first (by simp) (by decide)

/-- A hash placed first is checked against the element bytes of the rest: prepending
`NumberLong(XXH64(element bytes of c))` to a document `c` without the field gives a document
that is accepted and stripped back to `c`. -/
theorem verifyDocumentIntegrity_elements_hash_first {content : BSONObj}
    (clean : content.hasField kDocHashFieldName = false) :
    verifyDocumentIntegrity (hashElement (xxh64 (elementsBytes content) 0) :: content) = .ok () ∧
      stripHashField (hashElement (xxh64 (elementsBytes content) 0) :: content) = content := by
  have recomputed : computeDocumentHash (hashElement (xxh64 (elementsBytes content) 0) :: content) =
      xxh64 (elementsBytes content) 0 := by
    rw [computeDocumentHash, hashElement, hashedBytes_hashFirst]
  refine ⟨verifyDocumentIntegrity_ok (getField_hashElement_cons _ _) recomputed, ?_⟩
  rw [stripHashField_eq, withoutHashField_hashElement, withoutHashField_of_not_hasField clean]

end FastMongo.Integrity

import FastMongo.Index.FastPath

/-!
What the constructor of `BtreeKeyGeneratorV1` guarantees about the tables its fast path reads:
each simple field is an undotted field of the pattern with its own index, byte length and cache
slot, and its length passes the bitmap; each field of a prefix group is a dotted field split at
its first dot.
-/

namespace FastMongo.Index

open FastMongo.Bson

/-- An undotted field of the pattern as `SimpleFieldInfo` records it. -/
structure SimpleFieldOf (fieldNames : List (List Char)) (info : SimpleFieldInfo) : Prop where
  path : fieldNames[info.fieldIndex]? = some info.name.toList
  noDot : splitAtDot info.name.toList = none
  nameLen : info.nameLen = (utf8 info.name).length
  cacheSlot : info.cacheSlot = computeCacheSlot info.name

/-- A dotted field of the pattern as a prefix group records it. -/
def NestedFieldOf (fieldNames : List (List Char)) (prefixPath : List Char)
    (field : NestedFieldSuffix) : Prop :=
  ∃ fieldName, fieldNames[field.fieldIndex]? = some fieldName ∧
    splitAtDot fieldName = some (prefixPath, field.suffix)

/-- The tables of a generator agree with its field names. -/
structure BtreeKeyGeneratorV1.WellFormed (gen : BtreeKeyGeneratorV1) : Prop where
  simple : ∀ info ∈ gen.simpleFields, SimpleFieldOf gen.fieldNames info
  indices : (gen.simpleFields.map SimpleFieldInfo.fieldIndex).Nodup
  bitmap : ∀ info ∈ gen.simpleFields, bitmapAdmits gen.simpleLengthBitmap info.nameLen = true
  nested : ∀ group ∈ gen.prefixGroups, ∀ field ∈ group.fields,
    NestedFieldOf gen.fieldNames group.prefixPath field
  nonempty : ∀ name ∈ gen.fieldNames, name ≠ []

theorem UInt64.or_and_ne_zero {b x m : UInt64} (admitted : b &&& m ≠ 0) : (b ||| x) &&& m ≠ 0 := by
  have distrib : (b ||| x) &&& m = (b &&& m) ||| (x &&& m) :=
    UInt64.toBitVec_inj.mp (by simp [BitVec.and_or_distrib_right])
  rw [distrib]
  intro zero
  exact admitted (UInt64.or_eq_zero_iff.mp zero).1

theorem one_shiftLeft_ne_zero : ∀ k : Fin 64, (1 : UInt64) <<< k.val.toUInt64 ≠ 0 := by
  decide

/-- Setting a length's bit admits that length and keeps every length admitted before. -/
theorem bitmapAdmits_or {bitmap : UInt64} {len : Nat} (other : Nat) :
    bitmapAdmits (bitmap ||| ((1 : UInt64) <<< (len % 64).toUInt64)) len = true ∧
      (bitmapAdmits bitmap other = true →
        bitmapAdmits (bitmap ||| ((1 : UInt64) <<< (len % 64).toUInt64)) other = true) := by
  have bit := one_shiftLeft_ne_zero ⟨len % 64, Nat.mod_lt _ (by decide)⟩
  simp only [bitmapAdmits, bne_iff_ne, ne_eq] at bit ⊢
  refine ⟨?_, fun admitted => ?_⟩
  · rw [UInt64.or_comm]
    exact UInt64.or_and_ne_zero (by rw [UInt64.and_self]; exact bit)
  · exact UInt64.or_and_ne_zero admitted

/-- Every group of `tempPrefixGroups` holds dotted fields split at their first dot. -/
def GroupsOf (paths : List (List Char)) (groups : List (List Char × List NestedFieldSuffix)) :
    Prop :=
  ∀ group ∈ groups, ∀ field ∈ group.2, NestedFieldOf paths group.1 field

theorem GroupsOf.insert {paths : List (List Char)} {key : List Char} {entry : NestedFieldSuffix}
    (fresh : NestedFieldOf paths key entry) :
    ∀ {groups}, GroupsOf paths groups → GroupsOf paths (insertPrefixGroup key entry groups)
  | [], _ => by
      intro group member field inside
      simp only [insertPrefixGroup, List.mem_singleton] at member
      subst member
      simp only [List.mem_singleton] at inside
      rw [inside]
      exact fresh
  | (other, entries) :: rest, sound => by
      have restSound : GroupsOf paths rest := fun group member =>
        sound group (List.mem_cons_of_mem _ member)
      have head : ∀ field ∈ entries, NestedFieldOf paths other field := sound _ List.mem_cons_self
      intro group member field inside
      unfold insertPrefixGroup at member
      split at member
      · rename_i same
        rcases List.mem_cons.mp member with first | later
        · subst first
          rcases List.mem_append.mp inside with old | new
          · exact head field old
          · simp only [List.mem_singleton] at new
            rw [new, ← same]
            exact fresh
        · exact restSound group later field inside
      · split at member
        · rcases List.mem_cons.mp member with first | later
          · subst first
            simp only [List.mem_singleton] at inside
            rw [inside]
            exact fresh
          · exact sound group later field inside
        · rcases List.mem_cons.mp member with first | later
          · subst first
            exact head field inside
          · exact GroupsOf.insert fresh restSound group later field inside

/-- What the constructor loop has collected about the fields before index `next`. -/
structure PatternScan.Sound (paths : List (List Char)) (next : Nat) (scan : PatternScan) :
    Prop where
  simple : ∀ info ∈ scan.simpleFields, SimpleFieldOf paths info
  below : ∀ info ∈ scan.simpleFields, info.fieldIndex < next
  indices : (scan.simpleFields.map SimpleFieldInfo.fieldIndex).Nodup
  bitmap : ∀ info ∈ scan.simpleFields, bitmapAdmits scan.simpleLengthBitmap info.nameLen = true
  groups : GroupsOf paths scan.tempPrefixGroups

/-- One field of the constructor loop keeps what it has collected sound. -/
theorem PatternScan.Sound.add {paths : List (List Char)} {next : Nat} {scan : PatternScan}
    (sound : scan.Sound paths next) {fieldName : List Char}
    (found : paths[next]? = some fieldName) : (scan.add next fieldName).Sound paths (next + 1) := by
  unfold PatternScan.add
  split
  · rename_i noDot
    refine ⟨?_, ?_, ?_, ?_, sound.groups⟩
    · intro info member
      rcases List.mem_append.mp member with old | new
      · exact sound.simple info old
      · simp only [List.mem_singleton] at new
        subst new
        exact ⟨by simpa using found, by simpa using noDot, rfl, rfl⟩
    · intro info member
      rcases List.mem_append.mp member with old | new
      · have below := sound.below info old
        omega
      · simp only [List.mem_singleton] at new
        subst new
        exact Nat.lt_succ_self next
    · rw [List.map_append, List.nodup_append]
      refine ⟨sound.indices, by simp, ?_⟩
      intro index old other new
      obtain ⟨info, member, rfl⟩ := List.mem_map.mp old
      have below := sound.below info member
      simp only [List.map_cons, List.map_nil, List.mem_singleton] at new
      omega
    · intro info member
      rcases List.mem_append.mp member with old | new
      · exact (bitmapAdmits_or info.nameLen).2 (sound.bitmap info old)
      · simp only [List.mem_singleton] at new
        subst new
        exact (bitmapAdmits_or 0).1
  · rename_i prefixPath suffix split
    exact ⟨sound.simple, fun info member => Nat.lt_succ_of_lt (sound.below info member),
      sound.indices, sound.bitmap, GroupsOf.insert ⟨fieldName, found, split⟩ sound.groups⟩

/-- The constructor loop over the fields after `taken`. -/
theorem scanPattern_sound {paths : List (List Char)} :
    ∀ (taken rest : List (List Char)) (scan : PatternScan), paths = taken ++ rest →
      scan.Sound paths taken.length → (scanPattern taken.length rest scan).Sound paths paths.length
  | taken, [], scan, split, sound => by
      simp only [List.append_nil] at split
      subst split
      exact sound
  | taken, fieldName :: rest, scan, split, sound => by
      have found : paths[taken.length]? = some fieldName := by simp [split]
      have split' : paths = (taken ++ [fieldName]) ++ rest := by simp [split]
      have next := scanPattern_sound (taken ++ [fieldName]) rest _ split'
        (by simpa using sound.add found)
      simpa [scanPattern] using next

/-- The generator a key pattern builds is well formed. -/
theorem make_wellFormed (pattern : KeyPattern) (isSparse : Bool) :
    (BtreeKeyGeneratorV1.make pattern isSparse).WellFormed := by
  have initial : PatternScan.Sound (pattern.fieldNames.map String.toList) 0 ⟨[], 0, []⟩ :=
    ⟨by simp, by simp, by simp, by simp, by simp [GroupsOf]⟩
  have sound := scanPattern_sound [] (pattern.fieldNames.map String.toList) _ rfl initial
  refine ⟨sound.simple, sound.indices, sound.bitmap, ?_, ?_⟩
  · intro group member field inside
    simp only [BtreeKeyGeneratorV1.make, List.mem_map, List.mem_filter] at member
    obtain ⟨entry, ⟨kept, _⟩, rfl⟩ := member
    exact sound.groups entry kept field inside
  · intro name member
    simp only [BtreeKeyGeneratorV1.make, List.mem_map] at member
    obtain ⟨text, inside, rfl⟩ := member
    have nonempty := pattern.nonempty text inside
    simpa using nonempty

end FastMongo.Index

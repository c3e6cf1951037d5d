import FastMongo.Sharding.ShardKeyPattern

/-!
`ShardKeyPattern::isShardKey` and `ShardKeyPattern::normalizeShardKey` of
`s/shard_key_pattern.cpp`, and what they make of the keys the extraction returns. `isShardKey`
looks every pattern field up in the key with `shardKey[fieldName]` and asks whether it can be a
shard key value; `normalizeShardKey` rebuilds the key in the pattern's order, under the pattern's
field names, and `dassert`s that the result is a shard key.

Both extraction and normalization build keys laid out along the pattern: the pattern's names in
order, each with an admissible value, equal names with equal values. Such a key is a shard key
and normalizes to itself; so the `dassert` holds, normalizing twice is normalizing once, and an
extracted key is already normal.
-/

namespace FastMongo.Sharding

open FastMongo.Bson FastMongo.Matcher

section Keys

variable (scopeOkForStorage : List UInt8 → Bool)

/-- `ShardKeyPattern::isShardKey`: every pattern field names, in the key, an element that can be
a shard key value. -/
def ShardKeyPattern.isShardKey (pattern : ShardKeyPattern) (shardKey : BSONObj) : Bool :=
  pattern.isValid &&
    pattern.keyPattern.all fun patternEl =>
      isShardKeyElement scopeOkForStorage (shardKey.getField patternEl.1) true

/-- The loop of `normalizeShardKey` over the pattern elements left: each looks its field up in the
key and appends the value under the pattern's field name; none where the source returns
`BSONObj()`, at an element that cannot be a shard key value (EOO, when the field is absent, is
one). -/
def normalizeLoop (shardKey : BSONObj) : BSONObj → Option BSONObj
  | [] => some []
  | patternEl :: rest =>
      match shardKey.getField patternEl.1 with
      | some keyEl =>
          if isShardKeyElement scopeOkForStorage (some keyEl) true then
            (normalizeLoop shardKey rest).map ((patternEl.1, keyEl.2) :: ·)
          else none
      | none => none

/-- `ShardKeyPattern::normalizeShardKey`: empty for an invalid pattern and for a key with more
fields than the pattern; the `dassert` on the result is `normalizeShardKey_dassert`. -/
def ShardKeyPattern.normalizeShardKey (pattern : ShardKeyPattern) (shardKey : BSONObj) :
    BSONObj :=
  if !pattern.isValid then []
  else if shardKey.length > pattern.keyPattern.length then []
  else (normalizeLoop scopeOkForStorage shardKey pattern.keyPattern).getD []

/-- A key laid out along the pattern `patternEls`: their names in order, each with a value that
can be a shard key, and equal names with equal values. -/
structure AlongPattern (patternEls key : BSONObj) : Prop where
  names : key.map Prod.fst = patternEls.map Prod.fst
  admissible : ∀ e ∈ key, isShardKeyElement scopeOkForStorage (some e) true = true
  consistent : ∀ e ∈ key, ∀ e' ∈ key, e.1 = e'.1 → e = e'

variable {scopeOkForStorage}

/-- Whether an element can be a shard key value does not depend on its name. -/
theorem isShardKeyElement_rename (name name' : String) (value : Value) (allowRegex : Bool) :
    isShardKeyElement scopeOkForStorage (some (name, value)) allowRegex =
      isShardKeyElement scopeOkForStorage (some (name', value)) allowRegex := by
  cases value <;> rfl

/-- In a key laid out along a pattern, looking a key's own name up finds that element. -/
theorem AlongPattern.getField_eq {patternEls key : BSONObj}
    (along : AlongPattern scopeOkForStorage patternEls key) {e : BSONElement} (member : e ∈ key) :
    key.getField e.1 = some e := by
  have present : (key.getField e.1).isSome := BSONObj.hasField_iff.mpr ⟨e, member, rfl⟩
  obtain ⟨found, lookup⟩ := Option.isSome_iff_exists.mp present
  rw [lookup, along.consistent _ (BSONObj.getField_mem lookup) _ member
    (BSONObj.getField_name lookup)]

/-- A pattern name is the name of an element of a key laid out along the pattern. -/
theorem AlongPattern.exists_mem {patternEls key : BSONObj}
    (along : AlongPattern scopeOkForStorage patternEls key) {patternEl : BSONElement}
    (member : patternEl ∈ patternEls) : ∃ e ∈ key, e.1 = patternEl.1 := by
  have named : patternEl.1 ∈ key.map Prod.fst := by
    rw [along.names]
    exact List.mem_map_of_mem member
  simpa using named

/-- A key laid out along a valid pattern is a shard key. -/
theorem AlongPattern.isShardKey {pattern : ShardKeyPattern} {key : BSONObj}
    (valid : pattern.isValid = true)
    (along : AlongPattern scopeOkForStorage pattern.keyPattern key) :
    pattern.isShardKey scopeOkForStorage key = true := by
  simp only [ShardKeyPattern.isShardKey, valid, Bool.true_and, List.all_eq_true]
  intro patternEl member
  obtain ⟨e, mem, named⟩ := along.exists_mem member
  rw [← named, along.getField_eq mem]
  exact along.admissible e mem

/-- The loop of `normalizeShardKey` rebuilds any key whose names follow the pattern and whose
elements are found, admissible, under their own names. -/
theorem normalizeLoop_of_found (shardKey : BSONObj) :
    ∀ (patternEls out : BSONObj), out.map Prod.fst = patternEls.map Prod.fst →
      (∀ o ∈ out, shardKey.getField o.1 = some o ∧
        isShardKeyElement scopeOkForStorage (some o) true = true) →
      normalizeLoop scopeOkForStorage shardKey patternEls = some out
  | [], [], _, _ => rfl
  | [], _ :: _, names, _ => by simp at names
  | _ :: _, [], names, _ => by simp at names
  | patternEl :: rest, o :: outRest, names, found => by
      simp only [List.map_cons, List.cons.injEq] at names
      obtain ⟨lookup, admissible⟩ := found o List.mem_cons_self
      have tail := normalizeLoop_of_found shardKey rest outRest names.2
        fun o' member => found o' (List.mem_cons_of_mem _ member)
      rw [normalizeLoop, ← names.1, lookup]
      simp only [if_pos admissible, tail, Option.map_some]

/-- A key laid out along a valid pattern normalizes to itself. -/
theorem AlongPattern.normalizeShardKey {pattern : ShardKeyPattern} {key : BSONObj}
    (valid : pattern.isValid = true)
    (along : AlongPattern scopeOkForStorage pattern.keyPattern key) :
    pattern.normalizeShardKey scopeOkForStorage key = key := by
  have sameLength : key.length = pattern.keyPattern.length := by
    simpa using congrArg List.length along.names
  rw [ShardKeyPattern.normalizeShardKey, if_neg (by simp [valid]), if_neg (by omega),
    normalizeLoop_of_found key pattern.keyPattern key along.names
      fun o member => ⟨along.getField_eq member, along.admissible o member⟩]
  rfl

/-- What the loop of `normalizeShardKey` builds: the pattern's names, each element the value
found in the key under that name, admissible. -/
theorem normalizeLoop_spec {shardKey : BSONObj} :
    ∀ {patternEls out : BSONObj}, normalizeLoop scopeOkForStorage shardKey patternEls = some out →
      out.map Prod.fst = patternEls.map Prod.fst ∧
        ∀ o ∈ out, ∃ keyEl, shardKey.getField o.1 = some keyEl ∧ o.2 = keyEl.2 ∧
          isShardKeyElement scopeOkForStorage (some keyEl) true = true
  | [], out, built => by
      simp only [normalizeLoop, Option.some.injEq] at built
      subst built
      simp
  | patternEl :: rest, out, built => by
      simp only [normalizeLoop] at built
      split at built
      · rename_i keyEl lookup
        split_ifs at built with admissible
        obtain ⟨outRest, tail, rfl⟩ := Option.map_eq_some_iff.mp built
        obtain ⟨names, found⟩ := normalizeLoop_spec tail
        refine ⟨by simp [names], ?_⟩
        rintro o (_ | ⟨_, member⟩)
        · exact ⟨keyEl, lookup, rfl, admissible⟩
        · exact found o member
      · cases built

/-- What the loop of `normalizeShardKey` builds is laid out along the pattern. -/
theorem alongPattern_normalizeLoop {shardKey patternEls out : BSONObj}
    (built : normalizeLoop scopeOkForStorage shardKey patternEls = some out) :
    AlongPattern scopeOkForStorage patternEls out where
  names := (normalizeLoop_spec built).1
  admissible o member := by
    obtain ⟨keyEl, -, value, admissible⟩ := (normalizeLoop_spec built).2 o member
    rw [show o = (o.1, keyEl.2) from Prod.ext rfl value, isShardKeyElement_rename o.1 keyEl.1]
    exact admissible
  consistent o member o' member' same := by
    -- both values are the one found under their common name
    obtain ⟨keyEl, lookup, value, -⟩ := (normalizeLoop_spec built).2 o member
    obtain ⟨keyEl', lookup', value', -⟩ := (normalizeLoop_spec built).2 o' member'
    rw [same, lookup'] at lookup
    cases lookup
    exact Prod.ext same (value.trans value'.symm)

/-- The body of the extraction loops appends, under the pattern's name, a value that can be a
shard key: the value found, unless the pattern is hashed. -/
theorem keyElement_spec {hash64 : Value → Int64} {patternEl : BSONElement}
    {matchEl : Option BSONElement} {e : BSONElement}
    (appended : keyElement hash64 scopeOkForStorage patternEl matchEl = some e) :
    e.1 = patternEl.1 ∧ isShardKeyElement scopeOkForStorage (some e) true = true ∧
      (isHashedPatternEl patternEl = false → ∃ name, matchEl = some (name, e.2)) := by
  unfold keyElement at appended
  split at appended
  · rename_i name value
    split_ifs at appended with admissible hashed <;> obtain rfl := Option.some.inj appended
    · -- a hash is appended as a long, never an array, a document or a regular expression
      exact ⟨rfl, rfl, by simp [hashed]⟩
    · exact ⟨rfl, (isShardKeyElement_rename name patternEl.1 value true) ▸ admissible,
        fun _ => ⟨name, rfl⟩⟩
  · cases appended

/-- What the extraction loop builds: the pattern's names in order, each element admissible and
appended for a pattern element of its name, with the value found for it unless hashed. -/
theorem buildShardKey_spec {hash64 : Value → Int64} :
    ∀ {pairs : List (BSONElement × Option BSONElement)} {key : BSONObj},
      buildShardKey hash64 scopeOkForStorage pairs = some key →
      key.map Prod.fst = pairs.map (·.1.1) ∧
        ∀ e ∈ key, isShardKeyElement scopeOkForStorage (some e) true = true ∧
          ∃ pair ∈ pairs, pair.1.1 = e.1 ∧
            (isHashedPatternEl pair.1 = false → ∃ name, pair.2 = some (name, e.2))
  | [], key, built => by
      simp only [buildShardKey, Option.some.injEq] at built
      subst built
      simp
  | (patternEl, matchEl) :: rest, key, built => by
      simp only [buildShardKey, Option.pure_def, Option.bind_eq_bind, Option.bind_eq_some_iff,
        Option.some.injEq] at built
      obtain ⟨e, appended, more, tail, rfl⟩ := built
      obtain ⟨named, admissible, found⟩ := keyElement_spec appended
      obtain ⟨names, elements⟩ := buildShardKey_spec tail
      refine ⟨by simp [named, names], ?_⟩
      rintro e' (_ | ⟨_, member⟩)
      · exact ⟨admissible, _, List.mem_cons_self, named.symm, found⟩
      · obtain ⟨admissible', pair, pairMember, rest'⟩ := elements e' member
        exact ⟨admissible', pair, List.mem_cons_of_mem _ pairMember, rest'⟩

/-- A hashed pattern element parses only as the single element of its pattern. -/
theorem parsePatternEl_hashed {nFields : Nat} {patternEl : BSONElement} {path : FieldRef}
    (parsed : parsePatternEl nFields patternEl = some path)
    (hashed : isHashedPatternEl patternEl = true) : nFields = 1 := by
  have notNumber : patternEl.2.isNumber = false := by
    simp only [isHashedPatternEl, beq_iff_eq] at hashed
    rw [hashed]
    rfl
  unfold parsePatternEl at parsed
  simp only [notNumber, Bool.not_false, if_true, hashed] at parsed
  split_ifs at parsed
  simp_all

/-- Every element of a parsed pattern parses on its own. -/
theorem parsePatternEl_of_mapM {nFields : Nat} :
    ∀ {keyPattern : BSONObj} {paths : List FieldRef},
      keyPattern.mapM (parsePatternEl nFields) = some paths →
      ∀ patternEl ∈ keyPattern, ∃ path, parsePatternEl nFields patternEl = some path
  | [], _, _ => by simp
  | patternEl :: rest, paths, parsed => by
      simp only [List.mapM_cons, Option.pure_def, Option.bind_eq_bind, Option.bind_eq_some_iff,
        Option.some.injEq] at parsed
      obtain ⟨path, first, more, others, -⟩ := parsed
      rintro patternEl' (_ | ⟨_, member⟩)
      · exact ⟨path, first⟩
      · exact parsePatternEl_of_mapM others patternEl' member

/-- A pattern that `ShardKeyPattern` accepts has a hashed element only when it has one element. -/
theorem ShardKeyPattern.make_hashed {keyPattern : BSONObj} {patternEl : BSONElement}
    (member : patternEl ∈ (ShardKeyPattern.make keyPattern).keyPattern)
    (hashed : isHashedPatternEl patternEl = true) :
    (ShardKeyPattern.make keyPattern).keyPattern.length = 1 := by
  simp only [ShardKeyPattern.make] at member ⊢
  split_ifs at member ⊢ with empty
  · cases member
  · -- the parse succeeded, since a failed one leaves the empty list
    cases parsed : keyPattern.mapM (parsePatternEl keyPattern.length) with
    | none => simp [parseShardKeyPattern, parsed] at empty
    | some paths =>
        obtain ⟨path, first⟩ := parsePatternEl_of_mapM parsed patternEl member
        exact parsePatternEl_hashed first hashed

/-- The key the extraction loop builds for a pattern that `ShardKeyPattern` accepts is laid out
along the pattern. -/
theorem alongPattern_buildShardKey {hash64 : Value → Int64} {keyPattern doc key : BSONObj}
    (built : buildShardKey hash64 scopeOkForStorage
      ((ShardKeyPattern.make keyPattern).keyPattern.map fun patternEl =>
        (patternEl, extractKeyElementFromMatchable doc patternEl.1)) = some key) :
    AlongPattern scopeOkForStorage (ShardKeyPattern.make keyPattern).keyPattern key where
  names := by rw [(buildShardKey_spec built).1, List.map_map]; rfl
  admissible e member := ((buildShardKey_spec built).2 e member).1
  consistent e member e' member' same := by
    have sameLength : key.length = (ShardKeyPattern.make keyPattern).keyPattern.length := by
      simpa using congrArg List.length (buildShardKey_spec built).1
    by_cases single : (ShardKeyPattern.make keyPattern).keyPattern.length = 1
    · -- a key of one element, which may be a hash
      obtain ⟨x, rfl⟩ := List.length_eq_one_iff.mp (sameLength.trans single)
      rw [List.mem_singleton.mp member, List.mem_singleton.mp member']
    · -- no element is hashed, so both values are the element found under their common name
      have plain : ∀ patternEl ∈ (ShardKeyPattern.make keyPattern).keyPattern,
          isHashedPatternEl patternEl = false := fun patternEl patternMember =>
        Bool.eq_false_iff.mpr fun hashed => single (ShardKeyPattern.make_hashed patternMember hashed)
      obtain ⟨-, _, pairMember, named, found⟩ := (buildShardKey_spec built).2 e member
      obtain ⟨-, _, pairMember', named', found'⟩ := (buildShardKey_spec built).2 e' member'
      obtain ⟨patternEl, patternMember, rfl⟩ := List.mem_map.mp pairMember
      obtain ⟨patternEl', patternMember', rfl⟩ := List.mem_map.mp pairMember'
      obtain ⟨name, lookup⟩ := found (plain patternEl patternMember)
      obtain ⟨name', lookup'⟩ := found' (plain patternEl' patternMember')
      dsimp only at named named' lookup lookup'
      rw [named, same, ← named', lookup'] at lookup
      exact Prod.ext same (Prod.ext_iff.mp (Option.some.inj lookup)).2.symm

/-- For a valid pattern both extractions run the loop over the matchable lookups. -/
theorem extractShardKeyFromDoc_of_valid {hash64 : Value → Int64} {pattern : ShardKeyPattern}
    (doc : BSONObj) (valid : pattern.isValid = true) :
    pattern.extractShardKeyFromDoc hash64 scopeOkForStorage doc =
      (buildShardKey hash64 scopeOkForStorage (pattern.keyPattern.map fun patternEl =>
        (patternEl, extractKeyElementFromMatchable doc patternEl.1))).getD [] := by
  unfold ShardKeyPattern.extractShardKeyFromDoc
  rw [if_neg (by simp [valid])]
  split
  · rename_i allTopLevel
    rw [fastPath_lookups doc allTopLevel]
  · rw [ShardKeyPattern.extractShardKeyFromMatchable, if_neg (by simp [valid])]

/-- A key laid out along a valid pattern has the pattern's fields, so it is not empty. -/
theorem AlongPattern.ne_nil {pattern : ShardKeyPattern} {key : BSONObj}
    (valid : pattern.isValid = true)
    (along : AlongPattern scopeOkForStorage pattern.keyPattern key) : key ≠ [] := by
  rintro rfl
  have noFields : pattern.keyPattern = [] := List.map_eq_nil_iff.mp along.names.symm
  simp [ShardKeyPattern.isValid, noFields] at valid

/-- The empty object is no shard key. -/
theorem ShardKeyPattern.isShardKey_nil (pattern : ShardKeyPattern) :
    pattern.isShardKey scopeOkForStorage [] = false := by
  unfold ShardKeyPattern.isShardKey ShardKeyPattern.isValid
  cases pattern.keyPattern <;> rfl

/-- The empty object normalizes to itself: no field of the pattern is found in it. -/
theorem ShardKeyPattern.normalizeShardKey_nil (pattern : ShardKeyPattern) :
    pattern.normalizeShardKey scopeOkForStorage [] = [] := by
  unfold ShardKeyPattern.normalizeShardKey
  split_ifs
  · rfl
  · rfl
  · cases pattern.keyPattern <;> rfl

/-- A key that is empty, or laid out along a valid pattern, is normal, and it is a shard key
exactly when it is not empty. -/
theorem normal_of_alongPattern {pattern : ShardKeyPattern} {key : BSONObj}
    (shape : key = [] ∨
      pattern.isValid = true ∧ AlongPattern scopeOkForStorage pattern.keyPattern key) :
    pattern.normalizeShardKey scopeOkForStorage key = key ∧
      (pattern.isShardKey scopeOkForStorage key = true ↔ key ≠ []) := by
  rcases shape with rfl | ⟨valid, along⟩
  · exact ⟨pattern.normalizeShardKey_nil, by simp [ShardKeyPattern.isShardKey_nil]⟩
  · exact ⟨along.normalizeShardKey valid, by simp [along.isShardKey valid, along.ne_nil valid]⟩

/-- `normalizeShardKey` returns the empty object or a key laid out along the (valid) pattern. -/
theorem normalizeShardKey_shape (pattern : ShardKeyPattern) (shardKey : BSONObj) :
    pattern.normalizeShardKey scopeOkForStorage shardKey = [] ∨
      pattern.isValid = true ∧ AlongPattern scopeOkForStorage pattern.keyPattern
        (pattern.normalizeShardKey scopeOkForStorage shardKey) := by
  unfold ShardKeyPattern.normalizeShardKey
  split_ifs with invalid
  · exact Or.inl rfl
  · exact Or.inl rfl
  · cases loop : normalizeLoop scopeOkForStorage shardKey pattern.keyPattern with
    | none => exact Or.inl rfl
    | some built => exact Or.inr ⟨by simpa using invalid, alongPattern_normalizeLoop loop⟩

/-- `extractShardKeyFromDoc` returns the empty object or a key laid out along the pattern. -/
theorem extractShardKeyFromDoc_shape (hash64 : Value → Int64) (keyPattern doc : BSONObj) :
    let pattern := ShardKeyPattern.make keyPattern
    pattern.extractShardKeyFromDoc hash64 scopeOkForStorage doc = [] ∨
      pattern.isValid = true ∧ AlongPattern scopeOkForStorage pattern.keyPattern
        (pattern.extractShardKeyFromDoc hash64 scopeOkForStorage doc) := by
  intro pattern
  by_cases valid : pattern.isValid = true
  · rw [extractShardKeyFromDoc_of_valid doc valid]
    cases built : buildShardKey hash64 scopeOkForStorage (pattern.keyPattern.map fun patternEl =>
        (patternEl, extractKeyElementFromMatchable doc patternEl.1)) with
    | none => exact Or.inl rfl
    | some key => exact Or.inr ⟨valid, alongPattern_buildShardKey built⟩
  · left
    simp [ShardKeyPattern.extractShardKeyFromDoc, valid]

/-- The key `extractShardKeyFromDoc` returns is already normal: `normalizeShardKey` gives it back,
and it is a shard key exactly when it is not the empty object returned on failure. -/
theorem extractShardKeyFromDoc_normal (hash64 : Value → Int64) (keyPattern doc : BSONObj) :
    let pattern := ShardKeyPattern.make keyPattern
    let key := pattern.extractShardKeyFromDoc hash64 scopeOkForStorage doc
    pattern.normalizeShardKey scopeOkForStorage key = key ∧
      (pattern.isShardKey scopeOkForStorage key = true ↔ key ≠ []) :=
  normal_of_alongPattern (extractShardKeyFromDoc_shape hash64 keyPattern doc)

/-- Normalizing twice is normalizing once, and a normalized key is a shard key exactly when it is
not the empty object returned on failure; the `dassert` on the loop's result never fires. -/
theorem normalizeShardKey_normal (pattern : ShardKeyPattern) (shardKey : BSONObj) :
    let key := pattern.normalizeShardKey scopeOkForStorage shardKey
    pattern.normalizeShardKey scopeOkForStorage key = key ∧
      (pattern.isShardKey scopeOkForStorage key = true ↔ key ≠ []) :=
  normal_of_alongPattern (normalizeShardKey_shape pattern shardKey)

example : (ShardKeyPattern.make [("a", .scalar (.numberInt 1)), ("b", .scalar (.numberInt 1))]).normalizeShardKey
    (fun _ => true) [("b", .scalar (.numberInt 6)), ("a", .scalar (.numberInt 5))] =
    [("a", .scalar (.numberInt 5)), ("b", .scalar (.numberInt 6))] := by decide

end Keys

end FastMongo.Sharding

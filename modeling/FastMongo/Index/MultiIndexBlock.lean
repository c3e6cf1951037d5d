import FastMongo.Index.FastPath

/-!
`MultiIndexBlock::insert` of `index_create.cpp`: during an index build each document is handed to
every index being built, in order, with one `FieldOffsetCache` shared by them when there is more
than one. Only the btree indexes of versions 1 and 2 read or write the cache; every other access method takes
it and leaves it alone. `IndexCatalog::indexRecords` runs the same generators with no cache.
-/

namespace FastMongo.Index

open FastMongo.Bson

/-- The key generation of an index being built. -/
inductive IndexKeyGenerator where
  /-- `BtreeAccessMethod` of a version 1 or version 2 index: `BtreeKeyGenerator::make` builds a
  `BtreeKeyGeneratorV1` for both, from the key pattern, sparse flag and collator. -/
  | btreeV1 (pattern : KeyPattern) (isSparse : Bool) (ctx : KeyContext)
  /-- Any other access method (`BtreeKeyGeneratorV0`, hashed, 2d, 2dsphere, text, haystack): its
  keys for a document; it ignores the cache. -/
  | other (keys : BSONObj → Except Status KeyOutput)

/-- An entry of `MultiIndexBlock::_indexes`. -/
structure IndexToInsert where
  generator : IndexKeyGenerator
  /-- `filterExpression->matchesBSON` of a partial index. -/
  filterExpression : Option (BSONObj → Bool)
  /-- What `IndexAccessMethod::insert`, or the bulk builder's `insert`, makes of the keys: the
  key mode's handling of a key generation error, then the insertion into the index. -/
  insertKeys : Except Status KeyOutput → Except Status Unit

/-- `IndexAccessMethod::getKeys` for the document at `docPtr`, with the multikey paths that
`insert` always asks for, and the cache after. -/
def IndexKeyGenerator.getKeys (doc : BSONObj) (docPtr : Nat) (cache : Option FieldOffsetCache) :
    IndexKeyGenerator → Except Status KeyOutput × Option FieldOffsetCache
  | .btreeV1 pattern isSparse ctx =>
      FastMongo.Index.getKeys (BtreeKeyGeneratorV1.make pattern isSparse) ctx doc docPtr (some [])
        cache
  | .other keys => (keys doc, cache)

/-- The loop of `MultiIndexBlock::insert` over the remaining indexes: the keys of each index it
reaches, in order, and the status it returns, the first error of an insertion. -/
def insertIndexes (doc : BSONObj) (docPtr : Nat) :
    List IndexToInsert → Option FieldOffsetCache → List (Except Status KeyOutput) × Except Status Unit
  | [], _ => ([], .ok ())
  | index :: rest, cache =>
      if index.filterExpression.any fun accepts => !accepts doc then
        insertIndexes doc docPtr rest cache
      else
        let (keys, cache) := index.generator.getKeys doc docPtr cache
        match index.insertKeys keys with
        | .error status => ([keys], .error status)
        | .ok () =>
            let (more, status) := insertIndexes doc docPtr rest cache
            (keys :: more, status)

/-- `MultiIndexBlock::insert`: a cache is made, and shared, only when more than one index is
being built. -/
def MultiIndexBlock.insert (doc : BSONObj) (docPtr : Nat) (indexes : List IndexToInsert) :
    List (Except Status KeyOutput) × Except Status Unit :=
  insertIndexes doc docPtr indexes (if indexes.length > 1 then some FieldOffsetCache.fresh else none)

end FastMongo.Index

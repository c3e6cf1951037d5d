import FastMongo.Lib.Reachability
import FastMongo.Base.Status
import FastMongo.Base.StringData
import FastMongo.Bson.Value
import FastMongo.Coalescer.Model
import FastMongo.Coalescer.Invariant
import FastMongo.Coalescer.Properties
import FastMongo.Find.Command
import FastMongo.Find.Batching
import FastMongo.Bson.Encode
import FastMongo.Bson.ElementSize
import FastMongo.Hash.XXH64
import FastMongo.Integrity.DocumentHash
import FastMongo.Integrity.Properties
import FastMongo.Driver.Codec
import FastMongo.Driver.Verified
import FastMongo.Driver.Properties
import FastMongo.Write.Inserts
import FastMongo.Write.InsertContract
import FastMongo.Write.FixDocument
import FastMongo.Write.Store
import FastMongo.Index.FieldPath
import FastMongo.Index.KeyGenerator
import FastMongo.Index.KeyFuel
import FastMongo.Index.FastPath
import FastMongo.Index.Pattern
import FastMongo.Index.Prefill
import FastMongo.Index.Refinement
import FastMongo.Index.MultiIndexBlock
import FastMongo.Index.SharedCache
import FastMongo.Index.LeadingArray
import FastMongo.Matcher.Path
import FastMongo.Sharding.ShardKeyPattern
import FastMongo.Sharding.ShardKey
import FastMongo.Lib.PowerOfTwo
import FastMongo.Bson.BufBuilder
import FastMongo.Util.DecimalCounter
import FastMongo.Index.UnifiedFieldExtractor
import FastMongo.Lib.RangeMap
import FastMongo.Sharding.ChunkDiff
import FastMongo.Util.ItoA
import FastMongo.Lib.Intervals
import FastMongo.Sharding.CollectionMetadata
import FastMongo.Sharding.MetadataState
import FastMongo.Sharding.OrphanRange
import FastMongo.Sharding.MetadataLoader

/-!
`Status` and `StatusWith` of `mongo/base`: an error is its code from `error_codes.err` and
its reason text; a `Status::OK()` is the `ok` side of `Except`.
-/

namespace FastMongo

/-- The codes of `error_codes.err` that the modelled code raises or inspects; `location`
stands for a numbered assertion such as `uassert(16746, ...)`. -/
inductive ErrorCode where
  | internalError | badValue | exceededTimeLimit | staleShardVersion | shutdownInProgress
  | cannotIndexParallelArrays | cannotBuildIndexKeys | documentIntegrityError
  | recvStaleConfig | duplicateKey | interruptedAtShutdown | interrupted
  | interruptedDueToReplStateChange | sendStaleConfig | staleEpoch
  | location (number : Nat)
  deriving DecidableEq, Repr

/-- The `Interruption` error class. -/
def ErrorCode.isInterruption : ErrorCode → Bool
  | .interrupted | .interruptedAtShutdown | .interruptedDueToReplStateChange
  | .exceededTimeLimit => true
  | _ => false

/-- The `StaleShardingError` error class. -/
def ErrorCode.isStaleShardingError : ErrorCode → Bool
  | .recvStaleConfig | .sendStaleConfig | .staleShardVersion | .staleEpoch => true
  | _ => false

/-- A non-OK `Status`: its code and its reason text. -/
structure Status where
  code : ErrorCode
  reason : String
  deriving DecidableEq, Repr

/-- `StatusWith<T>`. -/
abbrev StatusWith (α : Type) := Except Status α

end FastMongo

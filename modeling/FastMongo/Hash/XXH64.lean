import FastMongo.Lib.LittleEndian

/-!
XXH64 as the vendored `third_party/xxhash/xxhash.h` computes it (`XXH64_endian_align` with its
round, merge, finalize and avalanche steps), over the input as a byte list. Inputs of 32 bytes
or more run four lanes over 32-byte stripes; the at most 31 bytes left over are folded in by
`XXH64_finalize` eight, four and one at a time.
-/

namespace XXHash

/-- `XXH_PRIME64_1`. -/
def PRIME64_1 : UInt64 := 0x9E3779B185EBCA87
/-- `XXH_PRIME64_2`. -/
def PRIME64_2 : UInt64 := 0xC2B2AE3D27D4EB4F
/-- `XXH_PRIME64_3`. -/
def PRIME64_3 : UInt64 := 0x165667B19E3779F9
/-- `XXH_PRIME64_4`. -/
def PRIME64_4 : UInt64 := 0x85EBCA77C2B2AE63
/-- `XXH_PRIME64_5`. -/
def PRIME64_5 : UInt64 := 0x27D4EB2F165667C5

/-- `XXH_rotl64`. -/
def rotl64 (x r : UInt64) : UInt64 :=
  (x <<< r) ||| (x >>> (64 - r))

/-- `XXH_readLE64`: the first eight bytes, little-endian. -/
def readLE64 (bytes : List UInt8) : UInt64 :=
  UInt64.ofNat (LittleEndian.ofBytes (bytes.take 8))

/-- `XXH_readLE32`: the first four bytes, little-endian. -/
def readLE32 (bytes : List UInt8) : UInt32 :=
  UInt32.ofNat (LittleEndian.ofBytes (bytes.take 4))

/-- `XXH64_round`. -/
def xxh64Round (acc input : UInt64) : UInt64 :=
  rotl64 (acc + input * PRIME64_2) 31 * PRIME64_1

/-- `XXH64_mergeRound`. -/
def xxh64MergeRound (acc val : UInt64) : UInt64 :=
  (acc ^^^ xxh64Round 0 val) * PRIME64_1 + PRIME64_4

/-- `XXH64_avalanche`. -/
def xxh64Avalanche (hash : UInt64) : UInt64 :=
  let hash := (hash ^^^ (hash >>> 33)) * PRIME64_2
  let hash := (hash ^^^ (hash >>> 29)) * PRIME64_3
  hash ^^^ (hash >>> 32)

/-- The last loop of `XXH64_finalize`: one byte at a time. -/
def finalizeBytes (hash : UInt64) : List UInt8 → UInt64
  | [] => hash
  | byte :: rest => finalizeBytes (rotl64 (hash ^^^ byte.toUInt64 * PRIME64_5) 11 * PRIME64_1) rest

/-- The `len >= 4` step of `XXH64_finalize`, then the byte loop. -/
def finalizeWord (hash : UInt64) : List UInt8 → UInt64
  | b0 :: b1 :: b2 :: b3 :: rest =>
      finalizeBytes (rotl64 (hash ^^^ (readLE32 [b0, b1, b2, b3]).toUInt64 * PRIME64_1) 23 *
        PRIME64_2 + PRIME64_3) rest
  | rest => finalizeBytes hash rest

/-- The `len >= 8` loop of `XXH64_finalize`, then the shorter steps. -/
def finalizeLanes (hash : UInt64) : List UInt8 → UInt64
  | b0 :: b1 :: b2 :: b3 :: b4 :: b5 :: b6 :: b7 :: rest =>
      finalizeLanes (rotl64 (hash ^^^ xxh64Round 0 (readLE64 [b0, b1, b2, b3, b4, b5, b6, b7])) 27 *
        PRIME64_1 + PRIME64_4) rest
  | rest => finalizeWord hash rest

/-- `XXH64_finalize` on the bytes after the last stripe. -/
def xxh64Finalize (hash : UInt64) (rest : List UInt8) : UInt64 :=
  xxh64Avalanche (finalizeLanes hash rest)

/-- The four accumulators `v1`..`v4` of the stripe loop. -/
structure Lanes where
  v1 : UInt64
  v2 : UInt64
  v3 : UInt64
  v4 : UInt64

/-- The accumulators before the first stripe. -/
def Lanes.init (seed : UInt64) : Lanes :=
  ⟨seed + PRIME64_1 + PRIME64_2, seed + PRIME64_2, seed + 0, seed - PRIME64_1⟩

/-- One pass of the do-while body: each lane takes its eight bytes of the stripe. -/
def Lanes.consume (lanes : Lanes) (stripe : List UInt8) : Lanes :=
  ⟨xxh64Round lanes.v1 (readLE64 stripe), xxh64Round lanes.v2 (readLE64 (stripe.drop 8)),
    xxh64Round lanes.v3 (readLE64 (stripe.drop 16)), xxh64Round lanes.v4 (readLE64 (stripe.drop 24))⟩

/-- The do-while loop over `count` stripes; it returns the lanes and the bytes left. -/
def consumeStripes : Nat → Lanes → List UInt8 → Lanes × List UInt8
  | 0, lanes, input => (lanes, input)
  | count + 1, lanes, input => consumeStripes count (lanes.consume input) (input.drop 32)

/-- The lanes folded into one accumulator after the loop. -/
def Lanes.converge (lanes : Lanes) : UInt64 :=
  let h64 := rotl64 lanes.v1 1 + rotl64 lanes.v2 7 + rotl64 lanes.v3 12 + rotl64 lanes.v4 18
  xxh64MergeRound (xxh64MergeRound (xxh64MergeRound (xxh64MergeRound h64 lanes.v1) lanes.v2)
    lanes.v3) lanes.v4

/-- `XXH64(input, len, seed)`: the loop runs while 32 or more bytes remain, `len / 32` times. -/
def xxh64 (input : List UInt8) (seed : UInt64) : UInt64 :=
  let len := input.length
  let (h64, rest) :=
    if len ≥ 32 then
      let (lanes, rest) := consumeStripes (len / 32) (Lanes.init seed) input
      (lanes.converge, rest)
    else (seed + PRIME64_5, input)
  xxh64Finalize (h64 + UInt64.ofNat len) rest

example : xxh64 [] 0 = 0xEF46DB3751D8E999 := by decide

example : xxh64 [0x61, 0x62, 0x63] 0 = 0x44BC2CF5AD770999 := by decide

example : xxh64 ((List.range 71).map fun i => UInt8.ofNat (i * 7 + 3)) 0 = 0xFDB8DFC5700141A7 := by
  decide

end XXHash

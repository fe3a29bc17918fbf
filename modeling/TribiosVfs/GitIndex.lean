import TribiosVfs.Paths

/-!
# Git index files (core/git_index.cpp, core/sha1.cpp)

An index file is kept as its bytes; what `parse_git_index` finds in it are the entries' paths and modes and where each entry starts.
A read outside the file is an error of its own here, `outside`, where the source would have no defined behaviour.
-/

namespace TribiosVfs

/-! ## SHA-1 -/

/-- `std::rotl`. -/
def rotl (x n : UInt32) : UInt32 := (x <<< n) ||| (x >>> (32 - n))

/-- `read_be32`, for an offset with four bytes behind it. -/
def readBe32 (bytes : Bytes) (offset : Nat) : UInt32 :=
  (List.range 4).foldl (fun value i => (value <<< 8) ||| (byteAt bytes (offset + i)).toUInt32) 0

/-- The five words of the hash. -/
structure Sha1State where
  a : UInt32
  b : UInt32
  c : UInt32
  d : UInt32
  e : UInt32
  deriving DecidableEq, Repr

def sha1InitialState : Sha1State := ⟨0x67452301, 0xefcdab89, 0x98badcfe, 0x10325476, 0xc3d2e1f0⟩

/-- The word of a message schedule at an index. -/
def wordAt (words : List UInt32) (i : Nat) : UInt32 := (words[i]?).getD 0

/-- The second loop of `compress_sha1_block`: so many words more. -/
def extendWords : Nat → List UInt32 → List UInt32
  | 0, words => words
  | n + 1, words =>
    let i := words.length
    extendWords n (words ++ [rotl (wordAt words (i - 3) ^^^ wordAt words (i - 8) ^^^ wordAt words (i - 14) ^^^ wordAt words (i - 16)) 1])

/-- The words of a block. -/
def blockWords (block : Bytes) : List UInt32 := extendWords 64 ((List.range 16).map (fun i => readBe32 block (i * 4)))

/-- The round function and the constant of a round. -/
def roundMix (i : Nat) (b c d : UInt32) : UInt32 × UInt32 :=
  if i < 20 then ((b &&& c) ||| (~~~b &&& d), 0x5a827999)
  else if i < 40 then (b ^^^ c ^^^ d, 0x6ed9eba1)
  else if i < 60 then ((b &&& c) ||| (b &&& d) ||| (c &&& d), 0x8f1bbcdc)
  else (b ^^^ c ^^^ d, 0xca62c1d6)

/-- One round. -/
def sha1Round (words : List UInt32) (s : Sha1State) (i : Nat) : Sha1State :=
  let (mixed, constant) := roundMix i s.b s.c s.d
  ⟨rotl s.a 5 + mixed + s.e + constant + wordAt words i, s.a, rotl s.b 30, s.c, s.d⟩

def compressSha1Block (state : Sha1State) (block : Bytes) : Sha1State :=
  let s := (List.range 80).foldl (sha1Round (blockWords block)) state
  ⟨state.a + s.a, state.b + s.b, state.c + s.c, state.d + s.d, state.e + s.e⟩

/-- `compress_sha1_block` over the blocks of a text. -/
def compressBlocks (state : Sha1State) (text : Bytes) (count : Nat) : Sha1State :=
  (List.range count).foldl (fun state i => compressSha1Block state ((text.drop (i * 64)).take 64)) state

/-- The zeros of the padding; `rounds` is more than the loop needs. -/
def padZeros : (rounds : Nat) → Bytes → Bytes
  | 0, tail => tail
  | rounds + 1, tail => if tail.length % 64 = 56 then tail else padZeros rounds (tail ++ [0])

/-- The bytes of a length in bits, the highest first. -/
def bitLengthBytes (bitLength : UInt64) : Bytes :=
  [56, 48, 40, 32, 24, 16, 8, 0].map (fun (shift : UInt64) => (bitLength >>> shift).toUInt8)

/-- The bytes of a word, the highest first. -/
def wordBytes (word : UInt32) : Bytes := [(word >>> 24).toUInt8, (word >>> 16).toUInt8, (word >>> 8).toUInt8, word.toUInt8]

/-- The last blocks: what is left of the data, and the padding. -/
def sha1Tail (data : Bytes) : Bytes :=
  padZeros 64 (data.drop (data.length / 64 * 64) ++ [0x80]) ++ bitLengthBytes (UInt64.ofNat data.length * 8)

def sha1Digest (data : Bytes) : Bytes :=
  let state := compressBlocks sha1InitialState data (data.length / 64)
  let tail := sha1Tail data
  let s := compressBlocks state tail (tail.length / 64)
  wordBytes s.a ++ wordBytes s.b ++ wordBytes s.c ++ wordBytes s.d ++ wordBytes s.e

/-! ## The file -/

structure GitIndexStat where
  ctimeSeconds : UInt32 := 0
  ctimeNanoseconds : UInt32 := 0
  mtimeSeconds : UInt32 := 0
  mtimeNanoseconds : UInt32 := 0
  device : UInt32 := 0
  inode : UInt32 := 0
  uid : UInt32 := 0
  gid : UInt32 := 0
  size : UInt32 := 0
  deriving DecidableEq, Repr

structure GitIndexEntry where
  path : Bytes
  mode : UInt32
  /-- Where the entry starts in the file. -/
  offset : Nat
  deriving DecidableEq, Repr

structure GitIndexFile where
  bytes : Bytes
  entries : List GitIndexEntry
  deriving DecidableEq, Repr

/-- Why `parse_git_index` refuses a file; `outside` is a read outside the file, and `endless` stands for a loop that has not
ended within its rounds. -/
inductive GitIndexError where
  | notAnIndex | unsupportedVersion (version : UInt32) | truncatedEntry | extendedFlags | corruptPrefix | unterminatedPath
  | splitIndex | truncatedExtension (signature : Bytes) | trailingBytes
  | outside | endless
  deriving DecidableEq, Repr

def kHeaderSize : Nat := 12
def kChecksumSize : Nat := 20
def kModeOffset : Nat := 24
def kFlagsOffset : Nat := 60
def kPathOffset : Nat := 62

/-- The bytes `DIRC`. -/
def indexSignature : Bytes := [68, 73, 82, 67]
/-- The bytes `link`. -/
def linkSignature : Bytes := [108, 105, 110, 107]

/-! ## Parsing -/

/-- `read_be32`. -/
def readWord (bytes : Bytes) (offset : Nat) : Except GitIndexError UInt32 :=
  if offset + 4 ≤ bytes.length then .ok (readBe32 bytes offset) else .error .outside

/-- The sixteen bits of an entry's flags. -/
def readFlags (bytes : Bytes) (offset : Nat) : Except GitIndexError Nat :=
  if offset + kFlagsOffset + 1 < bytes.length then
    .ok ((byteAt bytes (offset + kFlagsOffset)).toNat * 256 + (byteAt bytes (offset + kFlagsOffset + 1)).toNat)
  else .error .outside

/-- The bytes of a strip length behind the first, and how many they are. -/
def stripTail (value : Nat) : Bytes → Option (Nat × Nat)
  | [] => none
  | byte :: rest =>
    if 2 ^ 57 - 1 ≤ value then none
    else
      let value := (value + 1) * 128 + byte.toNat % 128
      if byte.toNat < 128 then some (value, 1) else (stripTail value rest).map (fun r => (r.1, r.2 + 1))

/-- `read_path_strip_length`: the value, and where the cursor stands behind it. -/
def readPathStripLength (bytes : Bytes) (cursor stop : Nat) : Option (Nat × Nat) :=
  match (bytes.take stop).drop cursor with
  | [] => none
  | byte :: rest =>
    if byte.toNat < 128 then some (byte.toNat, cursor + 1)
    else (stripTail (byte.toNat % 128) rest).map (fun r => (r.1, cursor + 1 + r.2))

/-- `bytes.find('\0', start)`, below the checksum. -/
def findTerminator (bytes : Bytes) (start stop : Nat) : Except GitIndexError Nat :=
  if start ≤ bytes.length ∧ 0 ∈ bytes.drop start ∧ start + (bytes.drop start).idxOf 0 < stop then
    .ok (start + (bytes.drop start).idxOf 0)
  else .error .unterminatedPath

/-- `bytes.substr` up to a position. -/
def slice (bytes : Bytes) (start stop : Nat) : Bytes := (bytes.drop start).take (stop - start)

/-- The path of an entry, and where the next entry starts. -/
def readPath (bytes : Bytes) (version : UInt32) (stop offset pathStart : Nat) (previousPath : Bytes) :
    Except GitIndexError (Bytes × Nat) :=
  if version = 4 then
    match readPathStripLength bytes pathStart stop with
    | none => .error .corruptPrefix
    | some (strip, cursor) =>
      if previousPath.length < strip then .error .corruptPrefix
      else do
        let terminator ← findTerminator bytes cursor stop
        return (previousPath.take (previousPath.length - strip) ++ slice bytes cursor terminator, terminator + 1)
  else do
    let terminator ← findTerminator bytes pathStart stop
    let path := slice bytes pathStart terminator
    -- entries are padded with NULs to a multiple of eight bytes, with at least one
    let next := offset + (pathStart - offset + path.length + 8) / 8 * 8
    if stop < next then .error .truncatedEntry else return (path, next)

/-- One entry, and where the next one starts. -/
def readEntry (bytes : Bytes) (version : UInt32) (stop offset : Nat) (previousPath : Bytes) :
    Except GitIndexError (GitIndexEntry × Nat) := do
  if stop < offset + kPathOffset then .error .truncatedEntry
  else
    let flags ← readFlags bytes offset
    let extended := flags / 16384 % 2 = 1
    if extended ∧ version < 3 then .error .extendedFlags
    else
      let (path, next) ← readPath bytes version stop offset (offset + kPathOffset + if extended then 2 else 0) previousPath
      let mode ← readWord bytes (offset + kModeOffset)
      return (⟨path, mode, offset⟩, next)

/-- So many entries from an offset on, and where they end. -/
def readEntries (bytes : Bytes) (version : UInt32) (stop : Nat) :
    (count : Nat) → (offset : Nat) → (previousPath : Bytes) → Except GitIndexError (List GitIndexEntry × Nat)
  | 0, offset, _ => .ok ([], offset)
  | count + 1, offset, previousPath => do
    let (entry, next) ← readEntry bytes version stop offset previousPath
    let (entries, last) ← readEntries bytes version stop count next entry.path
    return (entry :: entries, last)

/-- The loop over the extensions, for so many rounds. The source adds the header to an extension's size in 32 bits. -/
def skipExtensions (bytes : Bytes) (stop : Nat) : (rounds : Nat) → (offset : Nat) → Except GitIndexError Nat
  | 0, offset => if offset + 8 ≤ stop then .error .endless else .ok offset
  | rounds + 1, offset =>
    if offset + 8 ≤ stop then do
      let signature := slice bytes offset (offset + 4)
      let size ← readWord bytes (offset + 4)
      if signature = linkSignature then .error .splitIndex
      else if stop - offset - 8 < size.toNat then .error (.truncatedExtension signature)
      else skipExtensions bytes stop rounds (offset + (8 + size).toNat)
    else .ok offset

/-- `parse_git_index`, with so many rounds for the loop over the extensions. -/
def parseGitIndexWithin (rounds : Nat) (bytes : Bytes) : Except GitIndexError GitIndexFile :=
  if bytes.length < kHeaderSize + kChecksumSize ∨ slice bytes 0 4 ≠ indexSignature then .error .notAnIndex
  else do
    let version ← readWord bytes 4
    if version < 2 ∨ 4 < version then .error (.unsupportedVersion version)
    else
      let count ← readWord bytes 8
      let stop := bytes.length - kChecksumSize
      let (entries, last) ← readEntries bytes version stop count.toNat kHeaderSize []
      let offset ← skipExtensions bytes stop rounds last
      if offset ≠ stop then .error .trailingBytes else return ⟨bytes, entries⟩

/-- A loop that ends ends within a round for each byte. -/
def parseGitIndex (bytes : Bytes) : Except GitIndexError GitIndexFile := parseGitIndexWithin bytes.length bytes

/-! ## Stat data -/

/-- `write_be32`. -/
def writeBe32 (bytes : Bytes) (offset : Nat) (value : UInt32) : Bytes :=
  (List.range 4).foldl (fun bytes i => bytes.set (offset + i) (value >>> (24 - 8 * UInt32.ofNat i)).toUInt8) bytes

def readGitIndexStat (index : GitIndexFile) (entry : GitIndexEntry) : GitIndexStat :=
  let bytes := index.bytes
  let offset := entry.offset
  ⟨readBe32 bytes offset, readBe32 bytes (offset + 4), readBe32 bytes (offset + 8), readBe32 bytes (offset + 12), readBe32 bytes (offset + 16),
    readBe32 bytes (offset + 20), readBe32 bytes (offset + 28), readBe32 bytes (offset + 32), readBe32 bytes (offset + 36)⟩

/-- Where the fields of the stat data lie in an entry, with their values. -/
def GitIndexStat.fields (stat : GitIndexStat) : List (Nat × UInt32) :=
  [(0, stat.ctimeSeconds), (4, stat.ctimeNanoseconds), (8, stat.mtimeSeconds), (12, stat.mtimeNanoseconds), (16, stat.device),
    (20, stat.inode), (28, stat.uid), (32, stat.gid), (36, stat.size)]

def writeGitIndexStat (index : GitIndexFile) (entry : GitIndexEntry) (stat : GitIndexStat) : GitIndexFile :=
  { index with bytes := stat.fields.foldl (fun bytes field => writeBe32 bytes (entry.offset + field.1) field.2) index.bytes }

def sealGitIndex (index : GitIndexFile) : GitIndexFile :=
  let content := index.bytes.take (index.bytes.length - kChecksumSize)
  { index with bytes := content ++ sha1Digest content }

end TribiosVfs

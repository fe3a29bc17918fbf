import TribiosVfs.Paths

/-!
# The control protocol (daemon/protocol.cpp, the read loop of daemon/control_server.cpp)

A message is a line of tab-separated fields. A field is a byte string of any bytes; the bytes that would end a field or a line are
escaped by a percent sign and two hexadecimal digits.
-/

namespace TribiosVfs

/-- The byte `\t`. -/
def tab : UInt8 := 9

/-! ## Encoding -/

/-- The bytes that `append_escaped` escapes. -/
def mustEscape (c : UInt8) : Bool := c = percent || c = tab || c = newline || c = carriageReturn || c < 32

/-- A digit as the conversion `X` of `snprintf` writes it. -/
def hexDigit (n : Nat) : UInt8 := UInt8.ofNat (if n < 10 then 48 + n else 55 + n)

/-- What one byte of a field is written as. -/
def escapeByte (c : UInt8) : Bytes :=
  if mustEscape c then [percent, hexDigit (c.toNat / 16), hexDigit (c.toNat % 16)] else [c]

/-- `append_escaped`. -/
def appendEscaped (out field : Bytes) : Bytes := out ++ field.flatMap escapeByte

/-- The loop of `encode_message`, behind the first field. -/
def encodeLoop (out : Bytes) : List Bytes → Bytes
  | [] => out
  | field :: fields => encodeLoop (appendEscaped (out ++ [tab]) field) fields

/-- The fields of a message, without the newline. -/
def encodeFields : List Bytes → Bytes
  | [] => []
  | field :: fields => encodeLoop (appendEscaped [] field) fields

def encodeMessage (fields : List Bytes) : Bytes := encodeFields fields ++ [newline]

/-! ## Decoding -/

/-- `hex_value`, without a value where the source has -1. -/
def hexValue (c : UInt8) : Option Nat :=
  if 48 ≤ c ∧ c ≤ 57 then some (c.toNat - 48)
  else if 65 ≤ c ∧ c ≤ 70 then some (c.toNat - 65 + 10)
  else if 97 ≤ c ∧ c ≤ 102 then some (c.toNat - 97 + 10)
  else none

/-- The byte that `c` and what follows it are an escape of. -/
def escapeValue (c : UInt8) : Bytes → Option UInt8
  | high :: low :: _ =>
    if c = percent then
      match hexValue high, hexValue low with
      | some high, some low => some (UInt8.ofNat (high * 16 + low))
      | _, _ => none
    else none
  | _ => none

/-- The loop of `decode_message`: the finished fields, the field that grows, and how many bytes of an escape are still to be
passed over. -/
def decodeLoop (fields : List Bytes) (back : Bytes) : Nat → Bytes → List Bytes
  | _, [] => fields ++ [back]
  | skip + 1, _ :: line => decodeLoop fields back skip line
  | 0, c :: line =>
    if c = newline ∨ c = carriageReturn then fields ++ [back]
    else if c = tab then decodeLoop (fields ++ [back]) [] 0 line
    else match escapeValue c line with
      | some value => decodeLoop fields (back ++ [value]) 2 line
      | none => decodeLoop fields (back ++ [c]) 0 line

def decodeMessage (line : Bytes) : List Bytes := decodeLoop [] [] 0 line

/-! ## Reading a request -/

/-- What a `read` that returns bytes returns: at least one and at most the 4096 it asks for. -/
structure Chunk where
  bytes : Bytes
  positive : bytes ≠ []
  bounded : bytes.length ≤ 4096

/-- The read loop of `serve`: it ends at a newline, and where a `read` returns no bytes, at the end of the stream or with an error.
The list holds what the reads before that return. -/
def readLoop (buffer : Bytes) : List Chunk → Bytes
  | [] => buffer
  | chunk :: chunks => if newline ∈ buffer then buffer else readLoop (buffer ++ chunk.bytes) chunks

/-- What the chunks deliver together. -/
def delivered (chunks : List Chunk) : Bytes := chunks.flatMap (·.bytes)

/-- The request that `serve` dispatches. -/
def receiveRequest (chunks : List Chunk) : List Bytes := decodeMessage (readLoop [] chunks)

end TribiosVfs

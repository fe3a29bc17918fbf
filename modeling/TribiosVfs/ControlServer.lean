import TribiosVfs.WorkspaceEngine

/-!
# Filesystem requests (daemon/control_server.cpp)

`dispatch_filesystem_query` and `dispatch_filesystem_mutation`: which engine operations a `fs.*` request runs and with what
arguments. A request's fields are byte strings of any bytes. An errno of the engine is the errno of the reply.
-/

namespace TribiosVfs

/-- The `fs.*` verbs the server knows. -/
inductive FilesystemVerb where
  | stat | ls | read | readlink
  | write | create | mkdir | rm | rmdir | mv | symlink | chmod | truncate | utimens | fsync | fsyncdir
  deriving DecidableEq, Repr

/-- `request_argument`: a field that is not there is empty. -/
def requestArgument (request : List Bytes) (index : Nat) : Bytes := (request[index]?).getD []

/-- White space as `strtoull` skips it. -/
def isSpace (c : UInt8) : Bool := c = 32 || (9 ≤ c && c ≤ 13)

/-- The digits of a number at the start of a text. -/
def leadingDigits (base : Nat) (text : Bytes) : List Nat :=
  (text.takeWhile (fun c => 48 ≤ c && c.toNat < 48 + base)).map (fun c => c.toNat - 48)

/-- The sign and the magnitude of the number a text starts with. -/
def parseNumber (base : Nat) (text : Bytes) : Bool × Nat :=
  match text.dropWhile isSpace with
  | 45 :: rest => (true, (leadingDigits base rest).foldl (fun n d => n * base + d) 0)
  | 43 :: rest => (false, (leadingDigits base rest).foldl (fun n d => n * base + d) 0)
  | rest => (false, (leadingDigits base rest).foldl (fun n d => n * base + d) 0)

/-- `strtoull` and `strtoul`: a number out of range is the largest, and a minus sign negates modulo 2^64. -/
def strtoull (base : Nat) (text : Bytes) : Nat :=
  let (negative, n) := parseNumber base text
  if 2 ^ 64 ≤ n then 2 ^ 64 - 1 else if negative then (2 ^ 64 - n) % 2 ^ 64 else n

/-- The mode of `fs.chmod`: `static_cast<mode_t>` of what `strtoul` reads in base 8, where a `mode_t` has 32 bits. -/
def modeArgument (text : Bytes) : Nat := strtoull 8 text % 2 ^ 32

/-- `strtoll`: a number out of range is the nearest in range. -/
def strtoll (base : Nat) (text : Bytes) : Int :=
  let (negative, n) := parseNumber base text
  if negative then (if 2 ^ 63 ≤ n then -(2 ^ 63) else -(n : Int)) else if 2 ^ 63 ≤ n then 2 ^ 63 - 1 else n

/-- The reply to a query. -/
inductive QueryReply where
  | attributes (attr : Attr)
  | entries (names : List Name)
  | data (data : Bytes)
  | target (target : Bytes)
  deriving DecidableEq, Repr

/-- `dispatch_filesystem_query`; `none` for a verb that is no query. -/
def dispatchFilesystemQuery (verb : FilesystemVerb) (path : Bytes) : Option (EngineM QueryReply) :=
  match verb with
  | .stat => some do return .attributes (← getattr path)
  | .ls => some do return .entries ((← readdir path).map (·.name))
  | .read => some do
    let attributes ← getattr path
    return .data (← readFile path attributes.size 0)
  | .readlink => some do return .target (← readlink path)
  | _ => none

/-- `fs.write`: at offset 0 the data replaces the file. -/
def dispatchWrite (path data : Bytes) (offset : Nat) : EngineM Nat := do
  let written ← writeFile path data offset
  EngineM.onlyIf (offset = 0) (truncate path written)
  return written

/-- `dispatch_filesystem_mutation`; the reply's payload is the number of bytes written, where there is one. -/
def dispatchFilesystemMutation (verb : FilesystemVerb) (request : List Bytes) (path : Bytes) : Option (EngineM (Option Nat)) :=
  match verb with
  | .write => some do
    return some (← dispatchWrite path (requestArgument request 3) (strtoull 10 (requestArgument request 4)))
  | .create => some do create path 420; return none
  | .mkdir => some do mkdir path 493; return none
  | .rm => some do unlink path; return none
  | .rmdir => some do rmdir path; return none
  | .mv => some do rename path (requestArgument request 3); return none
  | .symlink => some do symlink path (requestArgument request 3); return none
  | .chmod => some do chmod path (modeArgument (requestArgument request 3)); return none
  | .truncate => some do truncate path (strtoull 10 (requestArgument request 3)); return none
  | .utimens => some do
    utimens path (strtoll 10 (requestArgument request 3)) (strtoll 10 (requestArgument request 4))
    return none
  | .fsync => some do fsyncPath path false false; return none
  | .fsyncdir => some do fsyncPath path false true; return none
  | _ => none

end TribiosVfs

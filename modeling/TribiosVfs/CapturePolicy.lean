import TribiosVfs.Recovery

/-!
# The capture policy (core/capture_policy.cpp)

The grammar of `.tribiosignore`, the matcher of its globs, and the decision a compiled policy makes of one path. The Project tree
a policy is read from, and the explanation of a decision, walk the tree as it is on disk.
-/

namespace TribiosVfs

/-! ## Bytes -/

/-- The byte `*`. -/
def star : UInt8 := 42
/-- The byte `?`. -/
def questionMark : UInt8 := 63
/-- The byte `[`. -/
def openBracket : UInt8 := 91
/-- The byte `]`. -/
def closeBracket : UInt8 := 93
/-- The byte `!`. -/
def exclamation : UInt8 := 33
/-- The byte `^`. -/
def caret : UInt8 := 94
/-- The byte `-`. -/
def hyphen : UInt8 := 45
/-- The byte `#`. -/
def hash : UInt8 := 35

/-- `is_valid_utf8`'s table: the number of continuation bytes after a lead byte, and the range of the first of them. -/
def utf8Continuation (lead : UInt8) : Option (Nat × UInt8 × UInt8) :=
  if 0xC2 ≤ lead ∧ lead ≤ 0xDF then some (1, 0x80, 0xBF)
  else if 0xE0 ≤ lead ∧ lead ≤ 0xEF then
    some (2, if lead = 0xE0 then 0xA0 else 0x80, if lead = 0xED then 0x9F else 0xBF)
  else if 0xF0 ≤ lead ∧ lead ≤ 0xF4 then
    some (3, if lead = 0xF0 then 0x90 else 0x80, if lead = 0xF4 then 0x8F else 0xBF)
  else none

/-- The loop of `is_valid_utf8`, one character a round. -/
def validUtf8From : Nat → Bytes → Bool
  | _, [] => true
  | 0, _ :: _ => false
  | fuel + 1, lead :: rest =>
    if lead < 0x80 then validUtf8From fuel rest
    else match utf8Continuation lead with
      | none => false
      | some (continuation, low, high) =>
        if rest.length < continuation then false
        else match rest with
          | [] => false
          | second :: _ =>
            if second < low ∨ high < second then false
            else if ((rest.take continuation).drop 1).any (fun c => c &&& 0xC0 ≠ 0x80) then false
            else validUtf8From fuel (rest.drop continuation)

/-- `is_valid_utf8`. -/
def isValidUtf8 (text : Bytes) : Bool := validUtf8From text.length text

/-! ## Character classes -/

/-- The scan of `find_class_end` for the closing bracket. -/
def scanClass (glob : Bytes) : Nat → Nat → Option Nat
  | 0, _ => none
  | fuel + 1, index =>
    match glob[index]? with
    | none => none
    | some c => if c = closeBracket then some (index + 1)
      else if c = backslash then scanClass glob fuel (index + 2)
      else scanClass glob fuel (index + 1)

/-- `find_class_end`: the index past the bracket that closes the class opened at an index. -/
def findClassEnd (glob : Bytes) (opening : Nat) : Option Nat :=
  let index := opening + 1
  let index := if glob[index]? = some exclamation ∨ glob[index]? = some caret then index + 1 else index
  let index := if glob[index]? = some closeBracket then index + 1 else index
  scanClass glob (glob.length + 1) index

/-- The loop of `class_matches` over the members of a class. -/
def classMembers (glob : Bytes) (close : Nat) (byte : UInt8) : Nat → Nat → Bool
  | 0, _ => false
  | fuel + 1, index =>
    if close ≤ index then false
    else
      let index := if byteAt glob index = backslash then index + 1 else index
      let low := byteAt glob index
      let index := index + 1
      if index + 1 < close ∧ byteAt glob index = hyphen then
        let index := index + 1
        let index := if byteAt glob index = backslash ∧ index + 1 < close then index + 1 else index
        (low ≤ byte && byte ≤ byteAt glob index) || classMembers glob close byte fuel (index + 1)
      else (low = byte) || classMembers glob close byte fuel index

/-- `class_matches`. -/
def classMatches (glob : Bytes) (opening past : Nat) (byte : UInt8) : Bool :=
  let negated := byteAt glob (opening + 1) = exclamation || byteAt glob (opening + 1) = caret
  classMembers glob (past - 1) byte glob.length (if negated then opening + 2 else opening + 1) != negated

/-! ## The glob matcher -/

/-- The pairs of a glob index and a text index known not to match. -/
abbrev FailedStates := List (Nat × Nat)

instance lawfulState : LawfulBEq (Nat × Nat) := inferInstance

/-- The text indices a lone `*` is tried at: up to the next slash, or the end. -/
def starStarts (text : Bytes) (index : Nat) : List Nat :=
  (List.range (((text.drop index).takeWhile (· ≠ slash)).length + 1)).map (index + ·)

/-- The text indices a `**/` is tried at: the current one, and one after each slash that follows. -/
def segmentStarts (text : Bytes) (index : Nat) : List Nat :=
  index :: (List.range text.length).filterMap (fun i => if index ≤ i ∧ text[i]? = some slash then some (i + 1) else none)

/-- Try each index in turn; the memo is carried from one try to the next. -/
def tryStarts (attempt : Nat → FailedStates → Bool × FailedStates) : List Nat → FailedStates → Bool × FailedStates
  | [], failed => (false, failed)
  | start :: starts, failed =>
    if (attempt start failed).1 then (true, (attempt start failed).2) else tryStarts attempt starts (attempt start failed).2

/-- A failure of the call that started at a state is remembered. -/
def rememberFailure (origin : Nat × Nat) (r : Bool × FailedStates) : Bool × FailedStates :=
  if r.1 then r else (false, origin :: r.2)

/-- `match_capture_glob_from`, with the state its call started at; each round moves the glob index on. -/
def matchCaptureGlobFrom (glob text : Bytes) : Nat → Nat × Nat → Nat → Nat → FailedStates → Bool × FailedStates
  | 0, _, _, _, failed => (false, failed)
  | fuel + 1, origin, globIndex, textIndex, failed =>
    let called := fun next start failed =>
      if (next, start) ∈ failed then (false, failed) else matchCaptureGlobFrom glob text fuel (next, start) next start failed
    match glob[globIndex]? with
    | none => rememberFailure origin (textIndex = text.length, failed)
    | some c =>
      if c = star then
        let afterStars := globIndex + ((glob.drop globIndex).takeWhile (· = star)).length
        let startsSegment := globIndex = 0 || glob[globIndex - 1]? = some slash
        let endsSegment := afterStars = glob.length || glob[afterStars]? = some slash
        if 2 ≤ afterStars - globIndex ∧ startsSegment ∧ endsSegment then
          if afterStars = glob.length then (true, failed)
          else rememberFailure origin (tryStarts (called (afterStars + 1)) (segmentStarts text textIndex) failed)
        else rememberFailure origin (tryStarts (called afterStars) (starStarts text textIndex) failed)
      else match text[textIndex]? with
        | none => rememberFailure origin (false, failed)
        | some current =>
          if c = questionMark then
            if current = slash then rememberFailure origin (false, failed)
            else matchCaptureGlobFrom glob text fuel origin (globIndex + 1) (textIndex + 1) failed
          else if c = openBracket then
            match findClassEnd glob globIndex with
            | none => rememberFailure origin (false, failed)
            | some past =>
              if current = slash ∨ classMatches glob globIndex past current = false then
                rememberFailure origin (false, failed)
              else matchCaptureGlobFrom glob text fuel origin past (textIndex + 1) failed
          else
            let literal := if c = backslash then globIndex + 1 else globIndex
            if glob[literal]? = some current then
              matchCaptureGlobFrom glob text fuel origin (literal + 1) (textIndex + 1) failed
            else rememberFailure origin (false, failed)

/-- `match_capture_glob`. -/
def matchCaptureGlob (glob text : Bytes) : Bool := (matchCaptureGlobFrom glob text (glob.length + 1) (0, 0) 0 0 []).1

/-! ## Compiling a policy -/

structure CapturePattern where
  text : Bytes
  line : Nat
  glob : Bytes
  negated : Bool := false
  directoryOnly : Bool := false
  anchored : Bool := false
  deriving DecidableEq, Repr

/-- Why a line of a policy does not parse. -/
inductive PatternError where
  | unfinishedEscape | unterminatedClass | namesNoPath | emptySegment
  deriving DecidableEq, Repr

/-- `trim_unescaped_trailing_whitespace`, on the reversed line. -/
def trimReversed : Bytes → Bytes
  | [] => []
  | c :: rest =>
    if (c = 32 ∨ c = 9) ∧ (rest.takeWhile (· = backslash)).length % 2 = 0 then trimReversed rest else c :: rest

def trimUnescapedTrailingWhitespace (line : Bytes) : Bytes := (trimReversed line.reverse).reverse

/-- The loop of `validate_glob`. -/
def validateGlobFrom (glob : Bytes) : Nat → Nat → Option PatternError
  | 0, _ => none
  | fuel + 1, index =>
    match glob[index]? with
    | none => none
    | some c =>
      if c = backslash then
        if index + 1 = glob.length then some .unfinishedEscape else validateGlobFrom glob fuel (index + 2)
      else if c = openBracket then
        match findClassEnd glob index with
        | none => some .unterminatedClass
        | some past => validateGlobFrom glob fuel past
      else validateGlobFrom glob fuel (index + 1)

/-- `validate_glob`. -/
def validateGlob (glob : Bytes) : Option PatternError := validateGlobFrom glob (glob.length + 1) 0

/-- A slash at the front or the back, or two in a row. -/
def hasEmptySegment (glob : Bytes) : Bool :=
  glob.head? = some slash || glob.getLast? = some slash || (splitSlash glob).any (· = [])

/-- The pattern of a trimmed line. -/
def parsePattern (line : Bytes) (number : Nat) : Except PatternError CapturePattern :=
  let negated := line.head? = some exclamation
  let glob := if negated then line.drop 1 else line
  let directoryOnly := glob.getLast? = some slash
  let glob := if directoryOnly then glob.dropLast else glob
  let rooted := glob.head? = some slash
  let glob := if rooted then glob.drop 1 else glob
  if glob = [] then .error .namesNoPath
  else if hasEmptySegment glob then .error .emptySegment
  else match validateGlob glob with
    | some e => .error e
    | none => .ok ⟨line, number, glob, negated, directoryOnly, rooted || slash ∈ glob⟩

/-- `parse_pattern_line`; `none` for a blank line or a comment. -/
def parsePatternLine (line : Bytes) (number : Nat) : Except PatternError (Option CapturePattern) :=
  let line := if line.getLast? = some carriageReturn then line.dropLast else line
  if line = [] ∨ line.head? = some hash then .ok none
  else
    let line := trimUnescapedTrailingWhitespace line
    if line = [] then .ok none else (parsePattern line number).map some

/-- Why a policy does not compile. -/
inductive PolicyError where
  | nulByte | notUtf8
  | badLine (number : Nat) (e : PatternError)
  | cannotInspect | notRegular | cannotRead
  deriving DecidableEq, Repr

/-- The lines of a text; a newline at the end starts no line. -/
def policyLines (source : Bytes) : List Bytes :=
  let lines := source.splitOn newline
  if lines.getLast? = some [] then lines.dropLast else lines

/-- The loop of `compile` over the lines. -/
def compileLines : Nat → List Bytes → Except PolicyError (List CapturePattern)
  | _, [] => .ok []
  | number, line :: lines =>
    match parsePatternLine line number with
    | .error e => .error (.badLine number e)
    | .ok parsed => (compileLines (number + 1) lines).map (parsed.toList ++ ·)

structure CapturePolicy where
  present : Bool := false
  sourceMode : Nat := 384
  source : Bytes := []
  patterns : List CapturePattern := []
  deriving DecidableEq, Repr

/-- `CapturePolicy::compile`. -/
def CapturePolicy.compile (source : Bytes) : Except PolicyError CapturePolicy :=
  if 0 ∈ source then .error .nulByte
  else if isValidUtf8 source = false then .error .notUtf8
  else (compileLines 1 (policyLines source)).map (fun patterns => { present := true, source := source, patterns := patterns })

/-! ## Decisions -/

/-- A decision: excluded or not, and the last matching pattern. -/
structure CaptureDecision where
  excluded : Bool := false
  pattern : Option CapturePattern := none
  deriving DecidableEq, Repr

/-- `final_segment`. -/
def finalSegment (relative : RelPath) : Bytes := relative.getLast?.getD []

/-- One round of the loop of `decide`. -/
def CapturePattern.apply (relative : RelPath) (isDirectory : Bool) (decision : CaptureDecision) (pattern : CapturePattern) :
    CaptureDecision :=
  if pattern.directoryOnly && !isDirectory then decision
  else if matchCaptureGlob pattern.glob (if pattern.anchored then relative.text else finalSegment relative) then
    ⟨!pattern.negated, some pattern⟩
  else decision

/-- `CapturePolicy::decide`: the last matching pattern decides. -/
def CapturePolicy.decide (policy : CapturePolicy) (relative : RelPath) (isDirectory : Bool) : CaptureDecision :=
  policy.patterns.foldl (CapturePattern.apply relative isDirectory) {}

/-! ## The Project tree -/

/-- What an entry of the Project tree is; `special` is a device, a pipe or a socket. -/
inductive SourceKind where
  | file (data : Bytes)
  | dir
  | symlink (target : Bytes)
  | special
  deriving DecidableEq, Repr

/-- An entry of the Project tree, on the device it is mounted from. What the invoking user may do with it: list a directory or
read a file, and search a directory. -/
structure SourceNode where
  kind : SourceKind
  device : Nat
  perm : Nat
  readable : Bool := true
  searchable : Bool := true
  deriving DecidableEq, Repr

/-- `S_ISDIR`. -/
def SourceNode.isDir (n : SourceNode) : Bool := match n.kind with | .dir => true | _ => false
/-- `S_ISLNK`. -/
def SourceNode.isLnk (n : SourceNode) : Bool := match n.kind with | .symlink _ => true | _ => false
/-- `is_capturable_type`. -/
def SourceNode.isCapturable (n : SourceNode) : Bool := match n.kind with | .special => false | _ => true

/-- What the kernel allows one process: the bytes of a path, with the NUL that ends it, and the descriptors that are still free. -/
structure Limits where
  pathMax : Nat := 4096
  descriptors : Nat := 1021
  deriving DecidableEq, Repr

/-- A path that a call takes; a longer one is `ENAMETOOLONG`. -/
def Limits.takes (limits : Limits) (p : List Name) : Bool := (pathText p).length < limits.pathMax

/-- The Project root's tree, with the root's own path, device and rights. -/
structure ProjectTree where
  entries : PathMap Name SourceNode
  root : SourceNode
  path : List Name := []
  limits : Limits := {}

/-- The path of an entry, from the root directory on, is one that a call takes. -/
def ProjectTree.takes (tree : ProjectTree) (p : RelPath) : Bool := tree.limits.takes (tree.path ++ p)

/-- There is a descriptor left for something at a depth, with one open for every directory above it. -/
def ProjectTree.opens (tree : ProjectTree) (depth : Nat) : Bool := depth < tree.limits.descriptors

/-- What `lstat` finds at a path with no symlink above it: nothing where the path is too long, or a directory on the way may not be
searched. -/
def ProjectTree.lstat (tree : ProjectTree) (p : RelPath) : Option SourceNode :=
  if tree.takes p && tree.root.searchable && p.inits.all (fun a => a = [] || a = p || match tree.entries.get a with
    | some n => n.searchable
    | none => false) then tree.entries.get p else none

/-- What `lstat` finds of an entry of a directory that was found. -/
def ProjectTree.lstatIn (tree : ProjectTree) (dir : SourceNode) (child : RelPath) : Option SourceNode :=
  if dir.searchable && tree.takes child then tree.entries.get child else none

/-- The name `.tribios`. -/
def kTribiosDirName : Name := [46, 116, 114, 105, 98, 105, 111, 115]
/-- The name `.tribiosignore`. -/
def kCapturePolicyFileName : Name := [46, 116, 114, 105, 98, 105, 111, 115, 105, 103, 110, 111, 114, 101]

/-- `CapturePolicy::load_from_project`. -/
def CapturePolicy.loadFromProject (tree : ProjectTree) : Except PolicyError CapturePolicy :=
  if tree.takes [kCapturePolicyFileName] = false || tree.root.searchable = false then .error .cannotInspect
  else match tree.entries.get [kCapturePolicyFileName] with
    | none => .ok {}
    | some n => match n.kind with
      | .file source =>
        if n.readable && tree.opens 0 then (CapturePolicy.compile source).map (fun policy => { policy with sourceMode := permBits n.perm })
        else .error .cannotRead
      | _ => .error .notRegular

/-! ## Explanations -/

/-- The reason an explanation gives. -/
inductive CaptureReason where
  | metadata | policyFile
  | symlink (ancestor : RelPath)
  | nestedMountParent (ancestor : RelPath)
  | parentPattern (decision : CaptureDecision) (ancestor : RelPath)
  | nestedMount | specialFile
  | pattern (decision : CaptureDecision)
  deriving DecidableEq, Repr

structure CaptureExplanation where
  excluded : Bool
  reason : CaptureReason
  deriving DecidableEq, Repr

/-- What `explain_capture_decision` says of one ancestor; `none` where it goes on. No ancestor is looked at beyond a symlink. -/
def explainAncestor (tree : ProjectTree) (policy : CapturePolicy) (ancestor : RelPath) : Option CaptureExplanation :=
  let byPolicy :=
    let decision := policy.decide ancestor true
    if decision.excluded then some ⟨true, .parentPattern decision ancestor⟩ else none
  match tree.lstat ancestor with
  | none => byPolicy
  | some n =>
    if n.isLnk then some ⟨true, .symlink ancestor⟩
    else if n.device ≠ tree.root.device then some ⟨true, .nestedMountParent ancestor⟩
    else byPolicy

/-- What `explain_capture_decision` says of the path itself, once no ancestor decides. -/
def explainEntry (tree : ProjectTree) (policy : CapturePolicy) (relative : RelPath) (spelledAsDirectory : Bool) :
    CaptureExplanation :=
  match tree.lstat relative with
  | none =>
    let decision := policy.decide relative spelledAsDirectory
    ⟨decision.excluded, .pattern decision⟩
  | some n =>
    if n.device ≠ tree.root.device then ⟨true, .nestedMount⟩
    else if n.isCapturable = false then ⟨true, .specialFile⟩
    else
      let decision := policy.decide relative n.isDir
      ⟨decision.excluded, .pattern decision⟩

/-- The proper ancestors of a path, the shortest first. -/
def properAncestors (relative : RelPath) : List RelPath := relative.inits.filter (fun a => a ≠ [] ∧ a ≠ relative)

/-- `explain_capture_decision`; `none` for the root, which is always captured, and where the root cannot be inspected. -/
def explainCaptureDecision (tree : ProjectTree) (policy : CapturePolicy) (relativePath : Bytes) : Option CaptureExplanation :=
  let relative := normalizeRelative relativePath
  if relative = [] then none
  else if relative.head? = some kGitDirName ∨ relative.head? = some kTribiosDirName then some ⟨true, .metadata⟩
  else if relative = [kCapturePolicyFileName] then some ⟨false, .policyFile⟩
  else if tree.takes [] = false then none
  else match (properAncestors relative).findSome? (explainAncestor tree policy) with
    | some explanation => some explanation
    | none => some (explainEntry tree policy relative (relativePath.getLast? = some slash))

end TribiosVfs

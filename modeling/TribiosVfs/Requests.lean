import TribiosVfs.Lifecycle
import TribiosVfs.Protocol

/-!
# Control requests (daemon/control_server.cpp)

`dispatch_control_request`: what a request makes the daemon do. The replies are left out, and so is the handler that is told of
changes. What `stats.upper` adds up is not modelled.
-/

namespace TribiosVfs

/-! ## Verbs -/

/-- The verb `ping`. -/
def pingVerb : Bytes := [112, 105, 110, 103]
/-- The verb `info`. -/
def infoVerb : Bytes := [105, 110, 102, 111]
/-- The verb `shutdown`. -/
def shutdownVerb : Bytes := [115, 104, 117, 116, 100, 111, 119, 110]
/-- The verb `ws.create`. -/
def wsCreateVerb : Bytes := [119, 115, 46, 99, 114, 101, 97, 116, 101]
/-- The verb `ws.remove`. -/
def wsRemoveVerb : Bytes := [119, 115, 46, 114, 101, 109, 111, 118, 101]
/-- The verb `ws.list`. -/
def wsListVerb : Bytes := [119, 115, 46, 108, 105, 115, 116]
/-- The verb `ws.wait-reclaim`. -/
def wsWaitReclaimVerb : Bytes := [119, 115, 46, 119, 97, 105, 116, 45, 114, 101, 99, 108, 97, 105, 109]
/-- The verb `stats.upper`. -/
def statsUpperVerb : Bytes := [115, 116, 97, 116, 115, 46, 117, 112, 112, 101, 114]

/-- The text of a filesystem verb. -/
def FilesystemVerb.text : FilesystemVerb → Bytes
  | .stat => [102, 115, 46, 115, 116, 97, 116] -- fs.stat
  | .ls => [102, 115, 46, 108, 115] -- fs.ls
  | .read => [102, 115, 46, 114, 101, 97, 100] -- fs.read
  | .readlink => [102, 115, 46, 114, 101, 97, 100, 108, 105, 110, 107] -- fs.readlink
  | .write => [102, 115, 46, 119, 114, 105, 116, 101] -- fs.write
  | .create => [102, 115, 46, 99, 114, 101, 97, 116, 101] -- fs.create
  | .mkdir => [102, 115, 46, 109, 107, 100, 105, 114] -- fs.mkdir
  | .rm => [102, 115, 46, 114, 109] -- fs.rm
  | .rmdir => [102, 115, 46, 114, 109, 100, 105, 114] -- fs.rmdir
  | .mv => [102, 115, 46, 109, 118] -- fs.mv
  | .symlink => [102, 115, 46, 115, 121, 109, 108, 105, 110, 107] -- fs.symlink
  | .chmod => [102, 115, 46, 99, 104, 109, 111, 100] -- fs.chmod
  | .truncate => [102, 115, 46, 116, 114, 117, 110, 99, 97, 116, 101] -- fs.truncate
  | .utimens => [102, 115, 46, 117, 116, 105, 109, 101, 110, 115] -- fs.utimens
  | .fsync => [102, 115, 46, 102, 115, 121, 110, 99] -- fs.fsync
  | .fsyncdir => [102, 115, 46, 102, 115, 121, 110, 99, 100, 105, 114] -- fs.fsyncdir

/-- The filesystem verbs, in the order the server tries them. -/
def FilesystemVerb.all : List FilesystemVerb :=
  [.stat, .ls, .read, .readlink, .write, .create, .mkdir, .rm, .rmdir, .mv, .symlink, .chmod, .truncate, .utimens, .fsync, .fsyncdir]

/-- The filesystem verb a text is. -/
def filesystemVerbOf (text : Bytes) : Option FilesystemVerb := FilesystemVerb.all.find? (fun verb => verb.text = text)

/-- What the verbs of Workspace requests start with. -/
def wsMarker : Bytes := [119, 115, 46]
/-- What the verbs of filesystem requests start with. -/
def fsMarker : Bytes := [102, 115, 46]

/-! ## Filesystem requests -/

/-- What the server asks of an engine, with the arguments as the engine is given them. -/
inductive FilesystemOperation where
  | upperBytes
  | stat (path : Bytes)
  | ls (path : Bytes)
  | read (path : Bytes)
  | readlink (path : Bytes)
  | write (path data : Bytes) (offset : Nat)
  | create (path : Bytes)
  | mkdir (path : Bytes)
  | rm (path : Bytes)
  | rmdir (path : Bytes)
  | mv (path destination : Bytes)
  | symlink (target linkPath : Bytes)
  | chmod (path : Bytes) (mode : Nat)
  | truncate (path : Bytes) (size : Nat)
  | utimens (path : Bytes) (atime mtime : Int)
  | fsync (path : Bytes)
  | fsyncdir (path : Bytes)
  deriving DecidableEq, Repr

/-- The operation of a filesystem request, from the fields that its verb reads. -/
def filesystemOperation (verb : FilesystemVerb) (request : List Bytes) : FilesystemOperation :=
  let path := requestArgument request 2
  match verb with
  | .stat => .stat path
  | .ls => .ls path
  | .read => .read path
  | .readlink => .readlink path
  | .write => .write path (requestArgument request 3) (strtoull 10 (requestArgument request 4))
  | .create => .create path
  | .mkdir => .mkdir path
  | .rm => .rm path
  | .rmdir => .rmdir path
  | .mv => .mv path (requestArgument request 3)
  | .symlink => .symlink path (requestArgument request 3)
  | .chmod => .chmod path (modeArgument (requestArgument request 3))
  | .truncate => .truncate path (strtoull 10 (requestArgument request 3))
  | .utimens => .utimens path (strtoll 10 (requestArgument request 3)) (strtoll 10 (requestArgument request 4))
  | .fsync => .fsync path
  | .fsyncdir => .fsyncdir path

/-- What a mutation runs on the engine. -/
def FilesystemOperation.mutation : FilesystemOperation → Option (EngineM (Option Nat))
  | .write path data offset => some do return some (← dispatchWrite path data offset)
  | .create path => some do TribiosVfs.create path 420; return none
  | .mkdir path => some do TribiosVfs.mkdir path 493; return none
  | .rm path => some do unlink path; return none
  | .rmdir path => some do TribiosVfs.rmdir path; return none
  | .mv path destination => some do rename path destination; return none
  | .symlink target linkPath => some do TribiosVfs.symlink target linkPath; return none
  | .chmod path mode => some do TribiosVfs.chmod path mode; return none
  | .truncate path size => some do TribiosVfs.truncate path size; return none
  | .utimens path atime mtime => some do TribiosVfs.utimens path atime mtime; return none
  | .fsync path => some do fsyncPath path false false; return none
  | .fsyncdir path => some do fsyncPath path false true; return none
  | .upperBytes | .stat _ | .ls _ | .read _ | .readlink _ => none

/-- A request's operation is what `dispatch_filesystem_mutation` runs. -/
theorem dispatchFilesystemMutation_eq (verb : FilesystemVerb) (request : List Bytes) :
    dispatchFilesystemMutation verb request (requestArgument request 2) = (filesystemOperation verb request).mutation := by
  cases verb <;> rfl

/-! ## All requests -/

/-- What a request makes the daemon do besides answering. -/
inductive ControlAction where
  /-- Nothing: the reply says what the server knows, or refuses. -/
  | reply
  | listRecords
  | waitForReclamation
  | shutdown
  | lifecycle (request : LifecycleRequest)
  | filesystem (workspace : Name) (operation : FilesystemOperation)

/-- `dispatch_workspace_request`. -/
def dispatchWorkspaceRequest (verb : Bytes) (request : List Bytes) : ControlAction :=
  if verb = wsCreateVerb then .lifecycle (.create (requestArgument request 1) (requestArgument request 2))
  else if verb = wsRemoveVerb then .lifecycle (.remove (requestArgument request 1))
  else if verb = wsListVerb then .listRecords
  else if verb = wsWaitReclaimVerb then .waitForReclamation
  else .reply

/-- `dispatch_filesystem_request`: without an engine the request is refused, and so is a verb the server does not know or does
not support. -/
def dispatchFilesystemRequest (m : Manager) (verb : Bytes) (request : List Bytes) : ControlAction :=
  if m.serves (requestArgument request 1) = false then .reply
  else if verb = statsUpperVerb then .filesystem (requestArgument request 1) .upperBytes
  else match filesystemVerbOf verb with
    | some verb => .filesystem (requestArgument request 1) (filesystemOperation verb request)
    | none => .reply

/-- `dispatch_control_request`. `unmounts` says whether `shutdown_unmount_` succeeds, or is not set: otherwise a shutdown is
refused. -/
def dispatchControlRequest (m : Manager) (unmounts : Bool) (request : List Bytes) : ControlAction :=
  match request with
  | [] => .reply
  | verb :: _ =>
    if verb = pingVerb then .reply
    else if verb = infoVerb then .reply
    else if verb = shutdownVerb then (if unmounts then .shutdown else .reply)
    else if wsMarker.isPrefixOf verb then dispatchWorkspaceRequest verb request
    else if fsMarker.isPrefixOf verb ∨ verb = statsUpperVerb then dispatchFilesystemRequest m verb request
    else .reply

/-- One connection of `serve`: it dispatches what it has read when the read loop ends. -/
def serveConnection (m : Manager) (unmounts : Bool) (chunks : List Chunk) : ControlAction :=
  dispatchControlRequest m unmounts (receiveRequest chunks)

end TribiosVfs

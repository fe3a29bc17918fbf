import TribiosVfs.WorkspaceEngine
import TribiosVfs.Lib.Service

/-!
# Running engines

The operations of an engine as data, with the program each runs, and the daemon as the service of its engines: one process for
each Workspace, all over one host and one store.
-/

namespace TribiosVfs

/-- A member function of `WorkspaceEngine` with its arguments. -/
inductive EngineOp where
  | getattr (path : Bytes)
  | readdir (path : Bytes)
  | readlink (path : Bytes)
  | readFile (path : Bytes) (size offset : Nat)
  | writeFile (path data : Bytes) (offset : Nat)
  | openHandle (path : Bytes) (flags : OpenFlags)
  | readHandle (fd : Int) (size offset : Nat)
  | writeHandle (fd : Int) (data : Bytes) (offset : Nat)
  | fsyncHandle (fd : Int) (dataOnly : Bool)
  | fsyncPath (path : Bytes) (dataOnly directory : Bool)
  | closeHandle (fd : Int)
  | create (path : Bytes) (mode : Nat)
  | mkdir (path : Bytes) (mode : Nat)
  | unlink (path : Bytes)
  | rmdir (path : Bytes)
  | rename (fromPath toPath : Bytes)
  | symlink (target linkPath : Bytes)
  | chmod (path : Bytes) (mode : Nat)
  | truncate (path : Bytes) (size : Nat)
  | utimens (path : Bytes) (atime mtime : Int)
  deriving DecidableEq, Repr

/-- What a member function returns. -/
inductive Reply where
  | done
  | attr (attr : Attr)
  | entries (entries : List DirEntry)
  | data (data : Bytes)
  | size (size : Nat)
  | handle (fd : Int)
  deriving DecidableEq, Repr

/-- The member function an operation names. -/
def EngineOp.run : EngineOp → EngineM Reply
  | .getattr path => do return .attr (← TribiosVfs.getattr path)
  | .readdir path => do return .entries (← TribiosVfs.readdir path)
  | .readlink path => do return .data (← TribiosVfs.readlink path)
  | .readFile path size offset => do return .data (← TribiosVfs.readFile path size offset)
  | .writeFile path data offset => do return .size (← TribiosVfs.writeFile path data offset)
  | .openHandle path flags => do return .handle (← TribiosVfs.openHandle path flags)
  | .readHandle fd size offset => do return .data (← TribiosVfs.readHandle fd size offset)
  | .writeHandle fd data offset => do return .size (← TribiosVfs.writeHandle fd data offset)
  | .fsyncHandle fd dataOnly => do TribiosVfs.fsyncHandle fd dataOnly; return .done
  | .fsyncPath path dataOnly directory => do TribiosVfs.fsyncPath path dataOnly directory; return .done
  | .closeHandle fd => do TribiosVfs.closeHandle fd; return .done
  | .create path mode => do TribiosVfs.create path mode; return .done
  | .mkdir path mode => do TribiosVfs.mkdir path mode; return .done
  | .unlink path => do TribiosVfs.unlink path; return .done
  | .rmdir path => do TribiosVfs.rmdir path; return .done
  | .rename fromPath toPath => do TribiosVfs.rename fromPath toPath; return .done
  | .symlink target linkPath => do TribiosVfs.symlink target linkPath; return .done
  | .chmod path mode => do TribiosVfs.chmod path mode; return .done
  | .truncate path size => do TribiosVfs.truncate path size; return .done
  | .utimens path atime mtime => do TribiosVfs.utimens path atime mtime; return .done

/-- The path strings an operation is given. -/
def EngineOp.paths : EngineOp → List Bytes
  | .getattr path | .readdir path | .readlink path | .readFile path _ _ | .writeFile path _ _ | .openHandle path _
  | .fsyncPath path _ _ | .create path _ | .mkdir path _ | .unlink path | .rmdir path | .symlink _ path | .chmod path _
  | .truncate path _ | .utimens path _ _ => [path]
  | .rename fromPath toPath => [fromPath, toPath]
  | .readHandle .. | .writeHandle .. | .fsyncHandle .. | .closeHandle .. => []

/-- The program that runs an operation and keeps the engine's memory. -/
def EngineOp.program (op : EngineOp) (e : Engine) : Prog Call Errno Engine := (op.run e).bind (fun r => .ret r.2)

/-- The constructor of `WorkspaceEngine`: the tombstones come from the store. -/
def Engine.construct (workspace : Name) (baseDir upperDir : HostPath) (store : Store) : Engine where
  workspace := workspace
  inodeSalt := workspaceInodeSalt workspace
  baseDir := baseDir
  upperDir := upperDir
  tombstones := store.visible.loadWorkspaceTombstones workspace

/-- The daemon, as far as its engines go: one process for each Workspace. -/
abbrev Daemon := Service Name Call Errno Engine World

/-- The programs an idle engine may start: those of the operations allowed to it. -/
def offersOf (allowed : Name → Engine → World → EngineOp → Prop) (workspace : Name) (e : Engine) (w : World)
    (p : Prog Call Errno Engine) : Prop :=
  ∃ op, allowed workspace e w op ∧ p = op.program e

end TribiosVfs

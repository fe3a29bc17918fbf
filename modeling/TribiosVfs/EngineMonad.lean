import TribiosVfs.Calls

/-!
# Computations of the engine

What one `WorkspaceEngine` object keeps in memory, and the computations its member functions are: `Io` makes calls and may
fail with an errno; `EngineM` also changes the engine's memory, and keeps the changes when it fails. The engine's `mutex_` is held
over a whole operation, so no other operation of the same Workspace runs in between. `Fallible` lets the error be of another
kind, as in recovery.
-/

namespace TribiosVfs

/-- A directory entry as `readdir` reports it. `mode` keeps only the file type, as `mode_for_directory_entry_type` does. -/
structure DirEntry where
  name : Name
  ino : UInt64
  mode : Nat
  deriving DecidableEq, Repr

/-- The `open` flags the engine looks at. -/
structure OpenFlags where
  access : AccessMode := .rdonly
  append : Bool := false
  trunc : Bool := false
  creat : Bool := false
  excl : Bool := false
  deriving DecidableEq, Repr

/-- `backing` is the backing descriptor, and `none` the descriptor -1. A descriptor denotes its file as it was opened, for the engine
never changes a published file in place. -/
structure OpenHandle where
  backing : Option Descriptor
  flags : OpenFlags
  relative : RelPath

/-- The memory of a `WorkspaceEngine`. -/
structure Engine where
  workspace : Name
  inodeSalt : UInt64
  baseDir : HostPath
  upperDir : HostPath
  tombstones : List RelPath := []
  directoryEntriesCache : List (RelPath × List DirEntry) := []
  handles : List (Int × OpenHandle) := []
  nextHandle : Int := 1

/-- Calls, and a result or an error of its own kind. -/
def Fallible (ε α : Type) : Type 1 := Prog Call Errno (Except ε α)

/-- Calls that may fail with an errno. -/
abbrev Io : Type → Type 1 := Fallible Errno

namespace Fallible

variable {ε ε' α β : Type}

/-- What follows a computation that may have failed. -/
def andThen (f : α → Fallible ε β) : Except ε α → Fallible ε β
  | .ok a => f a
  | .error e => Prog.ret (.error e)

instance : Monad (Fallible ε) where
  pure a := Prog.ret (.ok a)
  bind p f := Prog.bind p (andThen f)

def fail (e : ε) : Fallible ε α := Prog.ret (.error e)

/-- A computation whose failure is a value. -/
def attempt (p : Fallible ε α) : Fallible ε' (Except ε α) := Prog.bind p (fun r => Prog.ret (.ok r))

/-- A computation whose failure nobody looks at. -/
def ignore (p : Fallible ε α) : Fallible ε' Unit := Prog.bind p (fun _ => Prog.ret (.ok ()))

/-- What a failure is answered with. -/
def handle (f : ε → Fallible ε' α) : Except ε α → Fallible ε' α
  | .ok a => Prog.ret (.ok a)
  | .error e => f e

/-- A computation whose failure has its own answer. -/
def orElseDo (p : Fallible ε α) (f : ε → Fallible ε' α) : Fallible ε' α := Prog.bind p (handle f)

/-- A computation every failure of which is reported as one error. -/
def orFail (p : Fallible ε α) (e : ε') : Fallible ε' α := p.orElseDo (fun _ => fail e)

/-- Refuse on a condition. -/
def refuse (c : Prop) [Decidable c] (e : ε) : Fallible ε Unit := if c then fail e else pure ()

/-- Run a computation on a condition. -/
def onlyIf (c : Prop) [Decidable c] (p : Fallible ε Unit) : Fallible ε Unit := if c then p else pure ()

def forEach (f : α → Fallible ε Unit) : List α → Fallible ε Unit
  | [] => pure ()
  | a :: as => do
    f a
    forEach f as

end Fallible

/-- One call. -/
def Io.call {α : Type} (c : Call α) : Io α := Prog.call c Prog.ret

/-- `lstat_path`. -/
def lstatPath {ε : Type} (path : HostPath) : Fallible ε (Option Node) :=
  Prog.call (.lstat path) (fun r => Prog.ret (.ok r.toOption))

/-- Calls that may fail, and the memory of the engine. -/
def EngineM (α : Type) : Type 1 := Engine → Prog Call Errno (Except Errno α × Engine)

namespace EngineM

variable {α β : Type}

/-- What follows a computation that may have failed. -/
def andThen (f : α → EngineM β) : Except Errno α × Engine → Prog Call Errno (Except Errno β × Engine)
  | (.ok a, e) => f a e
  | (.error x, e) => .ret (.error x, e)

instance : Monad EngineM where
  pure a := fun e => .ret (.ok a, e)
  bind m f := fun e => (m e).bind (andThen f)

/-- A computation that reads the engine's memory. -/
def reads (f : Engine → Io α) : EngineM α := fun e => (f e).bind (fun r => .ret (r, e))

def modify (f : Engine → Engine) : EngineM Unit := fun e => .ret (.ok (), f e)

def fail (x : Errno) : EngineM α := fun e => .ret (.error x, e)

def refuse (c : Prop) [Decidable c] (x : Errno) : EngineM Unit := reads (fun _ => Fallible.refuse c x)

/-- Run a computation on a condition. -/
def onlyIf (c : Prop) [Decidable c] (m : EngineM Unit) : EngineM Unit := if c then m else pure ()

/-- A computation whose failure is a value. -/
def attempt (m : EngineM α) : EngineM (Except Errno α) := fun e => (m e).bind (fun r => .ret (.ok r.1, r.2))

end EngineM

end TribiosVfs

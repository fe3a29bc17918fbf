import TribiosVfs.Lib.Workers
import TribiosVfs.ControlServer
import TribiosVfs.ProjectManager

/-!
# The daemon's main thread and its reclamation threads

`run_daemon` opens the Project and gives up when that fails; then the control server serves one request after another, and every
removal leaves a reclamation thread behind. The process can stop at any point.
-/

namespace TribiosVfs

/-- What the thread of `start_workspace_reclamation` is given. -/
structure Reclamation where
  paths : ProjectPaths
  name : Name
  id : Nat

/-- Not started, given up at startup, or serving. -/
inductive DaemonState where
  | down | exited
  | up (m : Manager)

/-- The lifecycle requests, as the control server hands them on. -/
inductive LifecycleRequest where
  | create (name requestedBranch : Bytes)
  | remove (name : Bytes)

/-- A program of the main thread. -/
abbrev DaemonProgram : Type 1 := Prog Call Errno (DaemonState × Option Reclamation)

/-- The startup of the daemon. -/
def startDaemon (root : HostPath) : DaemonProgram :=
  (openConfiguredProject root).bind (fun r => .ret (match r with
    | .ok m => (.up m, none)
    | .error _ => (.exited, none)))

/-- `engines_.emplace` after a creation, `engines_.erase` and `start_workspace_reclamation` after a removal. -/
def LifecycleRequest.serve (m : Manager) : LifecycleRequest → DaemonProgram
  | .create name requestedBranch => (createWorkspace m name requestedBranch).bind (fun r => .ret (match r with
    | .ok (_, engine) => (.up { m with engines := m.engines ++ [(name, engine)] }, none)
    | .error _ => (.up m, none)))
  | .remove name => (removeWorkspace m name).bind (fun r => .ret (match r with
    | .ok (_, id) =>
      (.up { m with engines := m.engines.filter (fun entry => entry.1 ≠ name) }, some ⟨m.paths, name, id⟩)
    | .error _ => (.up m, none)))

/-- What the main thread may start. -/
def DaemonState.offers (root : HostPath) : DaemonState → World → DaemonProgram → Prop
  | .down, _, p => p = startDaemon root
  | .exited, _, _ => False
  | .up m, _, p => ∃ request : LifecycleRequest, p = request.serve m

/-- The daemon of the Project at `root`: `main` answers the calls of its main thread, `job` those of the reclamations, and `env`
is what else may happen to the world. -/
def lifecycle (root : HostPath) (main : DaemonState → Semantics Call Errno World) (job : Semantics Call Errno World)
    (env : DaemonState → World → World → Prop) : Workers.System Call Errno DaemonState Reclamation World where
  main := main
  job := job
  offers := DaemonState.offers root
  work j := (reclaimWorkspace j.paths j.name j.id).bind (fun _ => .ret ())
  env := env
  down := .down
  stop := World.stop

/-- What `configure` leaves in the store: the Project's record alone. -/
def World.Configured (w : World) : Prop := ∃ project : ProjectRecord, w.store = { committed := { project := some project } }

end TribiosVfs

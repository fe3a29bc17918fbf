import TribiosVfs.Lib.Prog
import TribiosVfs.MetadataStore

/-!
# The calls the program makes

The world the daemon runs in (the host file system, the metadata store, the Git registry and the fault-injection settings) and
every call the modelled code makes of it. The code makes one call at a time, so a process stop falls between two calls, and the
operations of different Workspaces interleave call by call; `finish_recovery_operation`, which holds the store's mutex over its
whole transaction, is one call.

`exec` answers a call that nothing hinders. `Fault` is how a call can fail besides: with an error and no effect, or with the
partial effect the call can have.
-/

namespace TribiosVfs

/-- The boundaries at which `injected_io_error` can be told to fail. -/
inductive Boundary where
  | journalWrite | stageFlush | journalPhase | publishRename | publishDirectoryFlush | journalFinish
  | lifecycleJournalWrite | lifecycleStateWrite | lifecycleStorageCreate | lifecycleGitPointerWrite | lifecycleActiveWrite
  | lifecycleRemovedWrite
  deriving DecidableEq, Repr

/-- `TRIBIOS_IO_FAULT` and `TRIBIOS_SHORT_WRITE_BYTES`. -/
structure Environment where
  ioFault : Option (Boundary × Errno) := none
  shortWriteBytes : Option Nat := none

/-- `injected_short_write_size`. -/
def Environment.shortWriteSize (env : Environment) (requested : Nat) : Nat :=
  match env.shortWriteBytes with
  | none => requested
  | some limit => min limit requested

/-- A linked worktree: its administrative directory, the directory it is checked out in, and its branch unless detached. -/
structure Worktree where
  admin : HostPath
  path : HostPath
  head : Option Name
  deriving DecidableEq, Repr

/-- The Project's Git repository: its branches with their commits, the branch and the commit of its main worktree, the linked
worktrees, whether its objects are connected, and the names it takes for a new branch. -/
structure Git where
  branches : List (Name × Nat) := []
  mainHead : Option Name := none
  headCommit : Option Nat := none
  worktrees : List Worktree := []
  connected : Bool := true
  acceptsBranch : Name → Bool := fun _ => true

/-- How a Git command ended: the exit status, and the part of the output the code looks for. -/
inductive GitReply where
  | ok | notAWorkingTree | notFound | failed
  deriving DecidableEq, Repr

structure World where
  host : Host
  store : Store
  git : Git := {}
  env : Environment := {}

/-- The calls, each with the type of a successful answer. -/
inductive Call : Type → Type where
  | lstat (p : HostPath) : Call Node
  | stat (p : HostPath) : Call Node
  | openDirectory (p : HostPath) : Call (List (Name × Node))
  | readSymlink (p : HostPath) : Call Bytes
  | mkdir (p : HostPath) (mode : Nat) : Call Unit
  | createFile (p : HostPath) (mode : Nat) : Call Unit
  | symlink (target : Bytes) (p : HostPath) : Call Unit
  | copyFile (src dst : HostPath) : Call Unit
  | chmod (p : HostPath) (mode : Nat) : Call Unit
  | utimes (p : HostPath) (atime mtime : Int) : Call Unit
  | truncate (p : HostPath) (size : Nat) : Call Unit
  | pwrite (p : HostPath) (data : Bytes) (offset : Nat) : Call Nat
  | openFile (p : HostPath) (access : AccessMode) : Call Descriptor
  | weaklyCanonical (p : HostPath) : Call HostPath
  /-- `pread` from a descriptor; `none` is the descriptor -1. -/
  | pread (file : Option Descriptor) (size offset : Nat) : Call Bytes
  | rename (src dst : HostPath) : Call Unit
  | remove (p : HostPath) : Call Unit
  | listTree (p : HostPath) : Call (List (HostPath × Node))
  | ensureDirectory (p : HostPath) : Call Unit
  | fsyncFile (p : HostPath) : Call Unit
  | fsyncDirectory (p : HostPath) : Call Unit
  /-- `fsync` of an open descriptor. -/
  | fsyncDescriptor (file : Option Descriptor) : Call Unit
  /-- A length no path on the host exceeds; `PATH_MAX` stands behind it. -/
  | pathBound : Call Nat
  | injectedIoError (boundary : Boundary) : Call Unit
  | injectedShortWriteSize (requested : Nat) : Call Nat
  | beginRecoveryOperation (operation : RecoveryOperation) : Call Nat
  | setRecoveryOperationPhase (id : Nat) (phase : RecoveryPhase) : Call Unit
  | finishRecoveryOperation (operation : RecoveryOperation) : Call Unit
  | abandonRecoveryOperation (id : Nat) : Call Unit
  | loadRecoveryOperations : Call (List RecoveryOperation)
  | loadWorkspaceRecord (name : Name) : Call (Option WorkspaceRecord)
  | loadProjectRecord : Call (Option ProjectRecord)
  | loadAllWorkspaceRecords : Call (List WorkspaceRecord)
  | loadWorkspaceTombstones (name : Name) : Call (List RelPath)
  | validateDatabaseIntegrity : Call Unit
  | saveWorkspaceRecord (record : WorkspaceRecord) : Call Unit
  | setWorkspaceState (name : Name) (state : WorkspaceState) : Call Unit
  | setWorkspaceReclamationDuration (name : Name) (us : Int) : Call Unit
  | clearTombstones (name : Name) : Call Unit
  /-- `open` with `O_CREAT | O_TRUNC`, and writes of all the bytes. -/
  | replaceFile (p : HostPath) (data : Bytes) : Call Unit
  /-- `git branch`, with which `git worktree add -b` begins. -/
  | gitBranch (projectRoot : HostPath) (branch : Name) : Call GitReply
  /-- The rest of `git worktree add --no-checkout -b`. -/
  | gitWorktreeAdd (projectRoot : HostPath) (branch : Name) (path : HostPath) : Call GitReply
  /-- The new content of an administrative directory's `gitdir`, which says where Git finds the worktree. -/
  | writeGitdir (admin gitFile : HostPath) : Call Unit
  /-- `populate_workspace_git_index`. -/
  | populateWorkspaceGitIndex (admin : HostPath) : Call Unit
  /-- `git worktree remove --force`. -/
  | gitWorktreeRemove (path : HostPath) : Call GitReply
  /-- `git branch -D`. -/
  | gitBranchDelete (branch : Name) : Call GitReply
  /-- `git fsck --connectivity-only`. -/
  | gitFsck : Call GitReply
  /-- `git worktree list --porcelain`. -/
  | gitWorktreeList : Call (List Worktree)
  | clock : Call Int

namespace World

/-- Run a call of the host file system. -/
def onHost {α : Type} (w : World) (f : Host → Except Errno α × Host) : Except Errno α × World :=
  ((f w.host).1, { w with host := (f w.host).2 })

/-- Run a statement that changes rows. -/
def onStore (w : World) (f : Tables → Tables) : Except Errno Unit × World :=
  (.ok (), { w with store := w.store.update f })

/-- The administrative directory Git makes for a new worktree: the name of its directory, or that name and the first number with
which it is free. -/
def freshAdmin (w : World) (registry path : HostPath) : HostPath :=
  let name := path.getLast?.getD []
  let candidates := name :: (List.range ((w.host.tree.names registry).length + 1)).map (fun i => name ++ decimal (i + 1))
  registry ++ [(candidates.find? (fun c => (w.host.tree.get (registry ++ [c])).isNone)).getD name]

/-- The entries Git makes for a new worktree, in the registry and in the worktree's own directory. -/
def worktreeEntries (admin path : HostPath) (branch : Name) : List (HostPath × Contents) :=
  [(admin, .dir), (admin ++ [headName], .file (refsHeadsMarker ++ branch ++ [10])),
    (admin ++ [commondirName], .file ([46, 46, 47, 46, 46] ++ [10])),
    (admin ++ [gitdirName], .file (pathText (path ++ [kGitDirName]) ++ [10])), (path, .dir),
    (path ++ [kGitDirName], .file (gitdirMarker ++ pathText admin ++ [10]))]

/-- An entry that Git makes where none is. -/
def addMissing (h : Host) (entry : HostPath × Contents) : Host :=
  if (h.tree.get entry.1).isSome then h
  else h.addEntry entry.1 entry.2
    (if entry.2 = .dir then h.directoryPerm entry.1.dropLast 511 else h.maskPerm 438)

/-- `git branch`: it fails without effect when the branch exists or its name is none Git takes, and when there is no commit to
start from. -/
def gitBranch (w : World) (projectRoot : HostPath) (branch : Name) : GitReply × World :=
  match w.git.headCommit with
  | none => (.failed, w)
  | some commit =>
    if (∃ b ∈ w.git.branches, b.1 = branch) ∨ w.git.acceptsBranch branch = false ∨
        isDirAt w.host.tree (projectRoot ++ [kGitDirName]) = false then (.failed, w)
    else (.ok, { w with git := { w.git with branches := w.git.branches ++ [(branch, commit)] } })

/-- A path at which Git checks out a new worktree: nothing is there or an empty directory, and nothing but directories above. -/
def vacant (t : Tree) (path : HostPath) : Bool :=
  ((nodeAt t path).isNone || (isDirAt t path && (t.names path).isEmpty)) &&
    path.dropLast.inits.all (fun p => (nodeAt t p).isNone || isDirAt t p)

/-- The rest of `git worktree add --no-checkout -b`, which leaves the branch when it fails: it does when something is at the path or
registered for it, and when the registry can be none. The directories above the path are made where they are missing. -/
def gitWorktreeAdd (w : World) (projectRoot : HostPath) (branch : Name) (path : HostPath) : GitReply × World :=
  let registry := projectRoot ++ [kGitDirName, worktreesName]
  if (∀ b ∈ w.git.branches, b.1 ≠ branch) ∨ (∃ t ∈ w.git.worktrees, t.path = path) ∨ vacant w.host.tree path = false ∨
      isDirAt w.host.tree (projectRoot ++ [kGitDirName]) = false ∨ (∃ n ∈ w.host.tree.get registry, n.isDir = false) then
    (.failed, w)
  else
    let admin := w.freshAdmin registry path
    let made := path.dropLast.inits.tail.map (·, Contents.dir) ++ (registry, Contents.dir) :: worktreeEntries admin path branch
    (.ok, { w with
      git := { w.git with worktrees := w.git.worktrees ++ [⟨admin, path, some branch⟩] }
      host := made.foldl addMissing w.host })

/-- A new `gitdir` moves the worktree. -/
def writeGitdir (w : World) (admin gitFile : HostPath) : Except Errno Unit × World :=
  match w.host.replaceFile (admin ++ [gitdirName]) (pathText gitFile ++ [10]) with
  | (.error e, h) => (.error e, { w with host := h })
  | (.ok (), h) => (.ok (), { w with
      host := h
      git := { w.git with worktrees := w.git.worktrees.map (fun t =>
        if t.admin = admin then { t with path := gitFile.dropLast } else t) } })

/-- `git worktree remove --force`: the worktree's registration and its administrative directory go. -/
def gitWorktreeRemove (w : World) (path : HostPath) : GitReply × World :=
  match w.git.worktrees.find? (fun t => t.path = path) with
  | none => (.notAWorkingTree, w)
  | some t => (.ok, { w with
      git := { w.git with worktrees := w.git.worktrees.filter (fun u => u ≠ t) }
      host := { w.host with tree := w.host.tree.keep (fun q => ¬t.admin <+: q) } })

/-- `git branch -D`: Git refuses a branch that a worktree has checked out. -/
def gitBranchDelete (w : World) (branch : Name) : GitReply × World :=
  if ∀ b ∈ w.git.branches, b.1 ≠ branch then (.notFound, w)
  else if w.git.mainHead = some branch ∨ ∃ t ∈ w.git.worktrees, t.head = some branch then (.failed, w)
  else (.ok, { w with git := { w.git with branches := w.git.branches.filter (fun b => b.1 ≠ branch) } })

end World

/-- The answer to a call that nothing hinders, and the world it leaves. -/
def exec : {β : Type} → Call β → World → Except Errno β × World
  | _, .lstat p, w => w.onHost (·.lstat p)
  | _, .stat p, w => w.onHost (·.stat p)
  | _, .openDirectory p, w => w.onHost (·.openDirectory p)
  | _, .readSymlink p, w => w.onHost (·.readSymlink p)
  | _, .mkdir p mode, w => w.onHost (·.mkdir p mode)
  | _, .createFile p mode, w => w.onHost (·.createFile p mode)
  | _, .symlink target p, w => w.onHost (·.symlink target p)
  | _, .copyFile src dst, w => w.onHost (·.copyFile src dst)
  | _, .chmod p mode, w => w.onHost (·.chmod p mode)
  | _, .utimes p atime mtime, w => w.onHost (·.utimes p atime mtime)
  | _, .truncate p size, w => w.onHost (·.truncate p size)
  | _, .pwrite p data offset, w => w.onHost (·.pwrite p data offset)
  | _, .openFile p access, w => w.onHost (·.openFile p access)
  | _, .pread file size offset, w => (Descriptor.pread file size offset, w)
  | _, .weaklyCanonical p, w => (.ok (w.host.weaklyCanonical p), w)
  | _, .rename src dst, w => w.onHost (·.rename src dst)
  | _, .remove p, w => w.onHost (·.remove p)
  | _, .listTree p, w => w.onHost (·.listTree p)
  | _, .ensureDirectory p, w => w.onHost (·.ensureDirectory p)
  | _, .fsyncFile p, w => w.onHost (·.fsyncFile p)
  | _, .fsyncDirectory p, w => w.onHost (·.fsyncDirectory p)
  | _, .fsyncDescriptor file, w => (if file.isSome then .ok () else .error .EBADF, w)
  | _, .pathBound, w => (.ok (w.host.tree.depth + 1), w)
  | _, .injectedIoError boundary, w =>
    (match w.env.ioFault with
      | some (b, e) => if b = boundary then .error e else .ok ()
      | none => .ok (), w)
  | _, .injectedShortWriteSize requested, w => (.ok (w.env.shortWriteSize requested), w)
  | _, .beginRecoveryOperation operation, w =>
    (.ok w.store.visible.nextId, { w with store := w.store.update (·.beginRecoveryOperation operation) })
  | _, .setRecoveryOperationPhase id phase, w => w.onStore (·.setRecoveryOperationPhase id phase)
  | _, .finishRecoveryOperation operation, w =>
    (if (w.store.finishRecoveryOperation {} operation).1 then .ok () else .error Errno.EIO,
      { w with store := (w.store.finishRecoveryOperation {} operation).2 })
  | _, .abandonRecoveryOperation id, w => w.onStore (·.abandonRecoveryOperation id)
  | _, .loadRecoveryOperations, w => (.ok w.store.visible.operations, w)
  | _, .loadWorkspaceRecord name, w => (.ok (w.store.visible.loadWorkspaceRecord name), w)
  | _, .loadProjectRecord, w => (.ok w.store.visible.project, w)
  | _, .saveWorkspaceRecord record, w => w.onStore (·.saveWorkspaceRecord record)
  | _, .setWorkspaceState name state, w => w.onStore (·.setWorkspaceState name state)
  | _, .setWorkspaceReclamationDuration name us, w => w.onStore (·.setWorkspaceReclamationDuration name us)
  | _, .clearTombstones name, w => w.onStore (·.clearTombstones name)
  | _, .loadAllWorkspaceRecords, w => (.ok w.store.visible.loadAllWorkspaceRecords, w)
  | _, .loadWorkspaceTombstones name, w => (.ok (w.store.visible.loadWorkspaceTombstones name), w)
  | _, .validateDatabaseIntegrity, w => (.ok (), w)
  | _, .replaceFile p data, w => w.onHost (·.replaceFile p data)
  | _, .gitBranch projectRoot branch, w => (.ok (w.gitBranch projectRoot branch).1, (w.gitBranch projectRoot branch).2)
  | _, .gitWorktreeAdd projectRoot branch path, w =>
    (.ok (w.gitWorktreeAdd projectRoot branch path).1, (w.gitWorktreeAdd projectRoot branch path).2)
  | _, .writeGitdir admin gitFile, w => w.writeGitdir admin gitFile
  | _, .populateWorkspaceGitIndex admin, w => w.onHost (·.replaceFile (admin ++ [indexName]) [])
  | _, .gitWorktreeRemove path, w => (.ok (w.gitWorktreeRemove path).1, (w.gitWorktreeRemove path).2)
  | _, .gitBranchDelete branch, w => (.ok (w.gitBranchDelete branch).1, (w.gitBranchDelete branch).2)
  | _, .gitFsck, w => (.ok (if w.git.connected then .ok else .failed), w)
  | _, .gitWorktreeList, w => (.ok w.git.worktrees, w)
  | _, .clock, w => (.ok w.host.now, w)

/-- What a call can do when the host or the disk fails it. -/
inductive Fault : {β : Type} → Call β → World → Except Errno β → World → Prop where
  /-- An error, and no effect. -/
  | error {β : Type} (c : Call β) (w : World) (e : Errno) : Fault c w (.error e) w
  /-- A copy that stops after some of the bytes. -/
  | copy (src dst : HostPath) (w : World) (e : Errno) (n : Nat) (h : Host) :
      w.host.copyFile src dst = (.ok (), h) →
      Fault (.copyFile src dst) w (.error e)
        { w with host := h.alter dst (fun m => match m.contents with
          | .file data => { m with contents := .file (data.take n) }
          | _ => m) }
  /-- A write that stops after some of the bytes, and says so. -/
  | write (p : HostPath) (data : Bytes) (offset n : Nat) (w : World) :
      Fault (.pwrite p data offset) w (exec (.pwrite p (data.take n) offset) w).1
        (exec (.pwrite p (data.take n) offset) w).2
  /-- A statement of the transaction that fails. -/
  | finish (operation : RecoveryOperation) (f : StatementFaults) (w : World) (e : Errno) :
      (w.store.finishRecoveryOperation f operation).1 = false →
      Fault (.finishRecoveryOperation operation) w (.error e)
        { w with store := (w.store.finishRecoveryOperation f operation).2 }

/-- The calls that are no system, store or Git call and so cannot fail. -/
def Call.internal : {β : Type} → Call β → Bool
  | _, .pathBound => true
  | _, .injectedIoError _ => true
  | _, .injectedShortWriteSize _ => true
  | _, .clock => true
  | _, _ => false

/-- The calls of the metadata store. -/
def Call.isStore : {β : Type} → Call β → Bool
  | _, .beginRecoveryOperation _ => true
  | _, .setRecoveryOperationPhase _ _ => true
  | _, .finishRecoveryOperation _ => true
  | _, .abandonRecoveryOperation _ => true
  | _, .loadRecoveryOperations => true
  | _, .loadWorkspaceRecord _ => true
  | _, .loadProjectRecord => true
  | _, .loadAllWorkspaceRecords => true
  | _, .loadWorkspaceTombstones _ => true
  | _, .validateDatabaseIntegrity => true
  | _, .saveWorkspaceRecord _ => true
  | _, .setWorkspaceState _ _ => true
  | _, .setWorkspaceReclamationDuration _ _ => true
  | _, .clearTombstones _ => true
  | _, _ => false

/-- Which calls the host or the disk may fail, by the call and the world it is made in. -/
structure Faults where
  may : {β : Type} → Call β → World → Prop

/-- How a world answers a call: as `exec` does, or by a fault where one may be. -/
def hosts (F : Faults) : Semantics Call Errno World where
  step c w r w' := exec c w = (r, w') ∨ (c.internal = false ∧ F.may c w ∧ Fault c w r w')

/-- Nothing fails but what the state of the world forbids. -/
def noFaults : Faults := ⟨fun _ _ => False⟩

/-- Any system, store or Git call may fail. -/
def anyFaults : Faults := ⟨fun _ _ => True⟩

/-- Any call may fail but those of the metadata store. -/
def storeSound : Faults := ⟨fun c _ => c.isStore = false⟩

/-- Without faults the answer is the one `exec` gives. -/
theorem hosts_noFaults {β : Type} {c : Call β} {w w' : World} {r : Except Errno β} :
    (hosts noFaults).step c w r w' ↔ exec c w = (r, w') := by
  simp [hosts, noFaults]

theorem hosts_exec (F : Faults) {β : Type} (c : Call β) (w : World) : (hosts F).step c w (exec c w).1 (exec c w).2 :=
  Or.inl rfl

/-- The calls that change nothing. -/
def Call.reads : {β : Type} → Call β → Bool
  | _, .lstat _ => true
  | _, .stat _ => true
  | _, .openDirectory _ => true
  | _, .readSymlink _ => true
  | _, .openFile _ _ => true
  | _, .pread _ _ _ => true
  | _, .weaklyCanonical _ => true
  | _, .listTree _ => true
  | _, .fsyncFile _ => true
  | _, .fsyncDirectory _ => true
  | _, .fsyncDescriptor _ => true
  | _, .pathBound => true
  | _, .injectedIoError _ => true
  | _, .injectedShortWriteSize _ => true
  | _, .loadRecoveryOperations => true
  | _, .loadWorkspaceRecord _ => true
  | _, .loadProjectRecord => true
  | _, .loadAllWorkspaceRecords => true
  | _, .loadWorkspaceTombstones _ => true
  | _, .validateDatabaseIntegrity => true
  | _, .gitFsck => true
  | _, .gitWorktreeList => true
  | _, .clock => true
  | _, _ => false

/-- The process stops: what it kept in memory is gone, and the store undoes an open transaction. -/
def World.stop (w : World) : World := { w with store := w.store.stop }

end TribiosVfs

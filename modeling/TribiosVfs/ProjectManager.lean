import TribiosVfs.BaseCapture
import TribiosVfs.Operations

/-!
# The Workspace lifecycle (core/project_manager.cpp, core/git_worktree.cpp)

`create_workspace`, `remove_workspace`, the reclamation that runs behind a removal, and the opening of a configured Project. The
control server serves one request after another, so these run one at a time, next to any number of reclamations. What the index
of a new worktree holds is left out, and so is the device of the mount point, which only the index is given.
-/

namespace TribiosVfs

/-- `ProjectPaths`, as far as the lifecycle needs them. -/
structure ProjectPaths where
  root : HostPath
  mountPoint : HostPath

def ProjectPaths.tribiosDir (paths : ProjectPaths) : HostPath := paths.root ++ [kTribiosDirName]
def ProjectPaths.baseDir (paths : ProjectPaths) : HostPath := paths.tribiosDir ++ [baseName]
def ProjectPaths.workspacesDir (paths : ProjectPaths) : HostPath := paths.tribiosDir ++ [workspacesName]
def ProjectPaths.stagingDir (paths : ProjectPaths) : HostPath := paths.tribiosDir ++ [stagingName]

/-- `workspace_upper_directory`. -/
def ProjectPaths.upperDirectory (paths : ProjectPaths) (name : Name) : HostPath := paths.workspacesDir ++ [name, upperName]

/-- `is_valid_workspace_name`. -/
def isValidWorkspaceName (name : Bytes) : Bool :=
  name ≠ [] && name.length ≤ 64 && name ≠ dot && name ≠ dotdot &&
    name.all (fun c => (48 ≤ c && c ≤ 57) || (65 ≤ c && c ≤ 90) || (97 ≤ c && c ≤ 122) || c = 45 || c = 95 || c = 46)

/-! ## Registering a linked worktree -/

/-- Why `register_linked_worktree` fails. -/
inductive RegisterError where
  | worktreeAddFailed | unexpectedGitFile | cannotUpdateGitdir | cannotPopulateIndex
  | cannotFlushFile (name : Name) | cannotFlushAdmin | cannotFlushBranch
  deriving DecidableEq, Repr

/-- The text `gitdir:`. -/
def gitdirWord : Bytes := [103, 105, 116, 100, 105, 114, 58]

/-- `std::string::find`. -/
def findText (needle text : Bytes) : Option Nat :=
  (List.range (text.length + 1)).find? (fun i => needle.isPrefixOf (text.drop i))

/-- The path an absolute path's text stands for. -/
def hostPathOf (text : Bytes) : HostPath := (splitSlash text).filter (· ≠ [])

/-- `std::filesystem::is_regular_file` with an error code. -/
def isRegularFile {ε : Type} (path : HostPath) : Fallible ε Bool :=
  Prog.call (.stat path) (fun r => Prog.ret (.ok (match r with
    | .ok n => n.isReg
    | .error _ => false)))

/-- `refs/heads`. -/
def refsHeads : List Name := [[114, 101, 102, 115], [104, 101, 97, 100, 115]]

/-- The flushes at the end of `register_linked_worktree`. -/
def flushLinkedWorktree (projectRoot adminDir : HostPath) (branch : Name) : Fallible RegisterError Unit := do
  Fallible.forEach (fun name => do
    let regular ← isRegularFile (adminDir ++ [name])
    Fallible.onlyIf regular ((Io.call (.fsyncFile (adminDir ++ [name]))).orFail (.cannotFlushFile name)))
    [headName, commondirName, gitdirName, indexName]
  (Io.call (.fsyncDirectory adminDir)).orFail .cannotFlushAdmin
  (syncParentDirectory adminDir).orFail .cannotFlushAdmin
  let branchRef := projectRoot ++ [kGitDirName] ++ refsHeads ++ splitSlash (cStr branch)
  let regular ← isRegularFile branchRef
  Fallible.onlyIf regular do
    (Io.call (.fsyncFile branchRef)).orFail .cannotFlushBranch
    (syncParentDirectory branchRef).orFail .cannotFlushBranch

/-- `register_linked_worktree`: the text of the Workspace's `.git` file. -/
def registerLinkedWorktree (projectRoot : HostPath) (branch : Name) (workspacePath stagingDir : HostPath) :
    Fallible RegisterError Bytes := do
  (removeAll stagingDir).ignore
  (createDirectories (parentPath stagingDir)).ignore
  let branched ← (Io.call (.gitBranch projectRoot (cStr branch))).orFail .worktreeAddFailed
  Fallible.refuse (branched ≠ .ok) .worktreeAddFailed
  let added ← (Io.call (.gitWorktreeAdd projectRoot (cStr branch) stagingDir)).orFail .worktreeAddFailed
  Fallible.refuse (added ≠ .ok) .worktreeAddFailed
  let gitFile ← readFirstLine (stagingDir ++ [kGitDirName])
  match findText gitdirWord gitFile with
  | none => Fallible.fail .unexpectedGitFile
  | some marker => do
    let admin := gitFile.drop (marker + 8)
    let adminDir := hostPathOf admin
    (Io.call (.writeGitdir adminDir (workspacePath ++ [kGitDirName]))).orFail .cannotUpdateGitdir
    (removeAll stagingDir).ignore
    (Io.call (.populateWorkspaceGitIndex adminDir)).orFail .cannotPopulateIndex
    flushLinkedWorktree projectRoot adminDir branch
    return gitdirMarker ++ admin ++ [10]

/-! ## Creating a Workspace -/

/-- Why a lifecycle request is refused. -/
inductive LifecycleError where
  | invalidName | alreadyExists | stillInUse | noSuchWorkspace
  | journalFailed (code : Errno) | stateFailed (code : Errno) | storageFailed (code : Errno) | pointerFailed (code : Errno)
  | activationFailed (code : Errno)
  | store (code : Errno)
  | cannotCreateStorage (code : Errno) | cannotFlushStorage
  | register (e : RegisterError)
  | cannotWritePointer (code : Errno)
  deriving DecidableEq, Repr

structure CreateResult where
  name : Name
  branch : Name
  createUs : Int
  path : HostPath
  deriving DecidableEq, Repr

structure RemoveResult where
  name : Name
  logicalRemoveUs : Int
  deriving DecidableEq, Repr

/-- A store call whose failure is reported as it is. -/
def stored {α : Type} (c : Call α) : Fallible LifecycleError α := (Io.call c).orElseDo (fun x => Fallible.fail (.store x))

/-- `write_file_durably`. -/
def writeFileDurably (path : HostPath) (contents : Bytes) : Io Unit := do
  Io.call (.replaceFile path contents)
  Io.call (.fsyncFile path)
  syncParentDirectory path

/-- The record is marked reclaimed and the journal record dropped; nobody looks at the results. -/
def abandonCreation {α : Type} (name : Name) (id : Nat) (e : LifecycleError) : Fallible LifecycleError α := do
  (Io.call (.setWorkspaceState name .reclaimed)).ignore
  (Io.call (.abandonRecoveryOperation id)).ignore
  Fallible.fail e

/-- A creation is given up after its worktree was registered. -/
def undoCreation {α : Type} (paths : ProjectPaths) (name branch : Name) (id : Nat) (e : LifecycleError) :
    Fallible LifecycleError α := do
  (rollbackLinkedWorktreeCreation paths.root branch (paths.mountPoint ++ [name]) (paths.stagingDir ++ [name])).ignore
  (removeAll (paths.upperDirectory name)).ignore
  abandonCreation name id e

/-- The journal record of a creation. -/
def journalCreation (name branch : Name) : Fallible LifecycleError Nat := do
  (Io.call (.injectedIoError .lifecycleJournalWrite)).orElseDo (fun x => Fallible.fail (.journalFailed x))
  stored (.beginRecoveryOperation
    { workspace := name, kind := .workspaceCreate, path := [name], target := RelPath.ofText branch })

/-- The Workspace record in state Creating. -/
def saveCreating (record : WorkspaceRecord) (id : Nat) : Fallible LifecycleError Unit := do
  (Io.call (.injectedIoError .lifecycleStateWrite)).orElseDo (fun x => do
    (Io.call (.abandonRecoveryOperation id)).ignore
    Fallible.fail (.stateFailed x))
  (Io.call (.saveWorkspaceRecord record)).orElseDo (fun x => do
    (Io.call (.abandonRecoveryOperation id)).ignore
    Fallible.fail (.store x))

/-- The empty upper tree. -/
def createStorage (paths : ProjectPaths) (name : Name) (id : Nat) : Fallible LifecycleError Unit := do
  (Io.call (.injectedIoError .lifecycleStorageCreate)).orElseDo (fun x => abandonCreation name id (.storageFailed x))
  (createDirectories (paths.upperDirectory name)).orElseDo (fun x => Fallible.fail (.cannotCreateStorage x))
  (syncParentDirectory (paths.upperDirectory name)).orFail .cannotFlushStorage

/-- The linked worktree, and the `.git` file that points at it. -/
def connectWorktree (paths : ProjectPaths) (name branch : Name) (id : Nat) : Fallible LifecycleError Unit := do
  let gitFile ← (registerLinkedWorktree paths.root branch (paths.mountPoint ++ [name]) (paths.stagingDir ++ [name])).orElseDo
    (fun e => do
      (removeAll (paths.upperDirectory name)).ignore
      abandonCreation name id (.register e))
  (Io.call (.injectedIoError .lifecycleGitPointerWrite)).orElseDo (fun x => undoCreation paths name branch id (.pointerFailed x))
  (writeFileDurably (paths.upperDirectory name ++ [kGitDirName]) gitFile).orElseDo
    (fun x => undoCreation paths name branch id (.cannotWritePointer x))

/-- The Workspace record in state Active, and the end of the journal record. -/
def activate (paths : ProjectPaths) (record : WorkspaceRecord) (id : Nat) : Fallible LifecycleError Unit := do
  (Io.call (.injectedIoError .lifecycleActiveWrite)).orElseDo
    (fun x => undoCreation paths record.name record.branch id (.activationFailed x))
  (Io.call (.saveWorkspaceRecord record)).orElseDo (fun x => undoCreation paths record.name record.branch id (.store x))
  stored (.abandonRecoveryOperation id)

/-- The constructor of `WorkspaceEngine`, which reads the tombstones from the store. -/
def constructEngine {ε : Type} (paths : ProjectPaths) (name : Name) : Fallible ε Engine := do
  let tombstones ← loadWorkspaceTombstones name
  return { workspace := name, inodeSalt := workspaceInodeSalt name, baseDir := paths.baseDir,
           upperDir := paths.upperDirectory name, tombstones := tombstones }

/-- What `create_workspace` does once the request is accepted. -/
def buildWorkspace (paths : ProjectPaths) (name branch : Name) : Fallible LifecycleError (CreateResult × Engine) := do
  let started ← stored .clock
  let id ← journalCreation name branch
  let createdAt ← stored .clock
  let record : WorkspaceRecord := { name := name, branch := branch, state := .creating, createdAt := createdAt }
  saveCreating record id
  createStorage paths name id
  connectWorktree paths name branch id
  let now ← stored .clock
  activate paths { record with state := .active, createUs := now - started } id
  let engine ← constructEngine paths name
  return (⟨name, branch, now - started, paths.mountPoint ++ [name]⟩, engine)

/-- The memory of a `ProjectManager`. -/
structure Manager where
  paths : ProjectPaths
  engines : List (Name × Engine) := []

/-- `engines_.contains`. -/
def Manager.serves (m : Manager) (name : Name) : Bool := m.engines.any (fun entry => entry.1 = name)

/-- The branch of a request. -/
def requestedOr (name requestedBranch : Bytes) : Name := if requestedBranch = [] then name else requestedBranch

/-- `ProjectManager::create_workspace`. -/
def createWorkspace (m : Manager) (name requestedBranch : Bytes) : Fallible LifecycleError (CreateResult × Engine) := do
  Fallible.refuse (isValidWorkspaceName name = false) .invalidName
  Fallible.refuse (m.serves name = true) .alreadyExists
  let existing ← loadWorkspaceRecord name
  Fallible.refuse (∃ record ∈ existing, record.state ≠ .reclaimed) .stillInUse
  buildWorkspace m.paths name (requestedOr name requestedBranch)

/-! ## Removing a Workspace -/

/-- The removal of a record that is loaded and active. -/
def removeActive (m : Manager) (record : WorkspaceRecord) (started : Int) : Fallible LifecycleError (RemoveResult × Nat) := do
  (Io.call (.injectedIoError .lifecycleJournalWrite)).orElseDo (fun x => Fallible.fail (.journalFailed x))
  let id ← stored (.beginRecoveryOperation { workspace := record.name, kind := .workspaceRemove, path := [record.name] })
  Fallible.onlyIf (m.serves record.name = false) do
    (Io.call (.abandonRecoveryOperation id)).ignore
    Fallible.fail .noSuchWorkspace
  let now ← stored .clock
  let record := { record with state := .removed, removedAt := now, logicalRemoveUs := now - started, reclaimUs := -1 }
  (Io.call (.injectedIoError .lifecycleRemovedWrite)).orElseDo (fun x => do
    (Io.call (.abandonRecoveryOperation id)).ignore
    Fallible.fail (.stateFailed x))
  (Io.call (.saveWorkspaceRecord record)).orElseDo (fun x => do
    (Io.call (.abandonRecoveryOperation id)).ignore
    Fallible.fail (.store x))
  return (⟨record.name, now - started⟩, id)

/-- `ProjectManager::remove_workspace`, with the journal record its reclamation is started with. -/
def removeWorkspace (m : Manager) (name : Bytes) : Fallible LifecycleError (RemoveResult × Nat) := do
  let started ← stored .clock
  match ← loadWorkspaceRecord name with
  | none => Fallible.fail .noSuchWorkspace
  | some record =>
    Fallible.refuse (record.state ≠ .active) .noSuchWorkspace
    removeActive m record started

/-- The thread of `start_workspace_reclamation`; it ends at the first step that fails. -/
def reclaimWorkspace (paths : ProjectPaths) (name : Name) (id : Nat) : Fallible RecoveryDetail Unit := do
  let started ← detailed (Io.call .clock) .storeFailed
  unregisterLinkedWorktree paths.root (paths.mountPoint ++ [name])
  detailed (removeAll (paths.workspacesDir ++ [name])) .removeFailed
  detailed (Io.call (.fsyncDirectory paths.workspacesDir)) .syncFailed
  detailed (Io.call (.clearTombstones name)) .storeFailed
  let now ← detailed (Io.call .clock) .storeFailed
  detailed (Io.call (.setWorkspaceReclamationDuration name (now - started))) .storeFailed
  detailed (Io.call (.setWorkspaceState name .reclaimed)) .storeFailed
  detailed (Io.call (.abandonRecoveryOperation id)) .storeFailed

/-! ## Opening a Project -/

/-- Why `open_configured_project` fails. -/
inductive OpenFailure where
  | projectRecordMissing
  | recovery (e : RecoveryFailure)
  | storage (e : StorageFailure)
  deriving DecidableEq, Repr

/-- The engines of the active records. -/
def constructEngines {ε : Type} (paths : ProjectPaths) : List WorkspaceRecord → Fallible ε (List (Name × Engine))
  | [] => pure []
  | record :: records => do
    if record.state = .active then
      let engine ← constructEngine paths record.name
      let engines ← constructEngines paths records
      return (record.name, engine) :: engines
    else constructEngines paths records

/-- `ProjectManager::open_configured_project`. -/
def openConfiguredProject (root : HostPath) : Fallible OpenFailure Manager := do
  match ← loadProjectRecord with
  | none => Fallible.fail .projectRecordMissing
  | some record =>
    let paths : ProjectPaths := ⟨root, record.mountPoint⟩
    (recoverInterruptedOperations paths.root paths.tribiosDir paths.workspacesDir).orElseDo (fun e => Fallible.fail (.recovery e))
    (validateProjectStorageInvariants paths.root paths.baseDir paths.workspacesDir).orElseDo (fun e => Fallible.fail (.storage e))
    let records ← loadAllWorkspaceRecords
    let engines ← constructEngines paths records
    return { paths := paths, engines := engines }

end TribiosVfs

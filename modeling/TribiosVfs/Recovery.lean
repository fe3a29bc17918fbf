import TribiosVfs.WorkspaceEngine

/-!
# Recovery (core/recovery.cpp, core/git_worktree.cpp)

`recover_interrupted_operations` settles every journal record before a Project is served: a prepared record is rolled back, a
publishing one is applied again from its stage, and the records of Workspace creation and removal are carried through. The
messages of its errors are kept as data: the record they name and the detail.
-/

namespace TribiosVfs

/-- The detail of a `recovery_error`. -/
inductive RecoveryDetail where
  | unsafePath | unknownKind | projectRecordMissing
  | removeFailed (code : Errno) | syncFailed (code : Errno) | parentFailed (code : Errno) | publishFailed (code : Errno)
  | bothMissing
  | storeFailed (code : Errno)
  | gitFailed | flushFailed
  | noGitPointer | adminDirectoryMissing | outsideRegistry | wrongWorkspace | integrityFailed | registryInconsistent
  deriving DecidableEq, Repr

/-- How recovery ends without success. -/
inductive RecoveryFailure where
  | journalUnreadable (code : Errno)
  /-- `recovery refused Project …, Workspace …, operation … at …: …` -/
  | refused (operation : RecoveryOperation) (detail : RecoveryDetail)
  | cannotReclaim (recoveryDir : HostPath) (code : Errno)
  | cannotReclaimStaging (code : Errno)
  | cannotRecreateStaging
  deriving DecidableEq, Repr

/-- `valid_recovery_relative_path`. -/
def validRecoveryRelativePath (path : RelPath) (allowEmpty : Bool) : Bool :=
  if path.text = [] then allowEmpty else (normalizeRelative path.text).text = path.text

/-- Report a failed call with a detail. -/
def detailed {α : Type} (p : Io α) (f : Errno → RecoveryDetail) : Fallible RecoveryDetail α :=
  p.orElseDo (fun x => Fallible.fail (f x))

/-- `remove_upper_entry`. -/
def removeUpperEntry (path : HostPath) (directory : Bool) : Fallible RecoveryDetail Unit := do
  match ← lstatPath path with
  | none => pure ()
  | some _ =>
    detailed (removeEntry path directory) .removeFailed
    detailed (syncParentDirectory path) .syncFailed

/-- `std::filesystem::create_directories`: every directory on the way that is missing. -/
def createDirectories (path : HostPath) : Io Unit :=
  Fallible.forEach (fun p => Io.call (.ensureDirectory p)) path.inits

/-- The staged entry is moved in place, or it is there already. -/
def moveStagedEntry (stage destination : HostPath) : Fallible RecoveryDetail Unit := do
  match ← lstatPath stage with
  | some _ =>
    detailed (createDirectories (parentPath destination)) .parentFailed
    detailed (Io.call (.rename stage destination)) .publishFailed
  | none =>
    let published ← lstatPath destination
    Fallible.refuse (published.isNone) .bothMissing

/-- `publish_staged_entry`. -/
def publishStagedEntry (stage destination : HostPath) : Fallible RecoveryDetail Unit := do
  moveStagedEntry stage destination
  detailed (syncParentDirectory destination) .syncFailed

/-- `staged_filesystem_operation`. -/
def OperationKind.staged : OperationKind → Bool
  | .create | .mkdir | .symlink | .write | .truncate | .chmod | .utimens | .rename => true
  | _ => false

/-! ## Workspace records -/

/-- The name `upper`. -/
def upperName : Name := [117, 112, 112, 101, 114]
/-- The name `staging`. -/
def stagingName : Name := [115, 116, 97, 103, 105, 110, 103]

/-- `read_first_line`: empty where nothing can be read. -/
def readFirstLine {ε : Type} (path : HostPath) : Fallible ε Bytes :=
  Prog.call (.openFile path .rdonly) (fun r => Prog.ret (.ok (match r with
    | .ok ⟨⟨.file data, _⟩, _⟩ => data.takeWhile (· ≠ 10)
    | _ => [])))

/-- `std::filesystem::is_directory` with an error code. -/
def isDirectory {ε : Type} (path : HostPath) : Fallible ε Bool :=
  Prog.call (.stat path) (fun r => Prog.ret (.ok (match r with
    | .ok n => n.isDir
    | .error _ => false)))

/-- `unregister_linked_worktree`. -/
def unregisterLinkedWorktree (projectRoot workspacePath : HostPath) : Fallible RecoveryDetail Unit := do
  let removed ← detailed (Io.call (.gitWorktreeRemove workspacePath)) (fun _ => .gitFailed)
  Fallible.refuse (removed ≠ .ok ∧ removed ≠ .notAWorkingTree) .gitFailed
  let worktrees := projectRoot ++ [kGitDirName, worktreesName]
  let registry ← isDirectory worktrees
  Fallible.onlyIf registry (detailed (Io.call (.fsyncDirectory worktrees)) (fun _ => .flushFailed))
  detailed (Io.call (.fsyncDirectory (projectRoot ++ [kGitDirName]))) (fun _ => .flushFailed)

/-- `rollback_linked_worktree_creation`: only the failure of both removals is reported. -/
def rollbackLinkedWorktreeCreation (projectRoot : HostPath) (branch : Name) (workspacePath stagingDir : HostPath) :
    Fallible RecoveryDetail Unit := do
  let removeWorkspace ← (unregisterLinkedWorktree projectRoot workspacePath).attempt
  let removeStaging ← (unregisterLinkedWorktree projectRoot stagingDir).attempt
  match removeWorkspace, removeStaging with
  | .error d, .error _ => Fallible.fail d
  | _, _ =>
    let deleted ← detailed (Io.call (.gitBranchDelete (cStr branch))) (fun _ => .gitFailed)
    Fallible.refuse (deleted ≠ .ok ∧ deleted ≠ .notFound) .gitFailed

/-- `validate_completed_workspace_creation`. -/
def validateCompletedWorkspaceCreation (projectRoot upperDir : HostPath) (operation : RecoveryOperation) :
    Fallible RecoveryDetail Unit := do
  let pointer ← readFirstLine (upperDir ++ [kGitDirName])
  Fallible.refuse (gitdirMarker.isPrefixOf pointer = false) .noGitPointer
  let adminDir := splitSlash (pointer.drop gitdirMarker.length)
  let present ← isDirectory adminDir
  Fallible.refuse (present = false) .adminDirectoryMissing
  let canonicalAdmin ← detailed (Io.call (.weaklyCanonical adminDir)) (fun _ => .outsideRegistry)
  let canonicalRegistry ← detailed (Io.call (.weaklyCanonical (projectRoot ++ [kGitDirName, worktreesName])))
    (fun _ => .outsideRegistry)
  Fallible.refuse (parentPath canonicalAdmin ≠ canonicalRegistry) .outsideRegistry
  let registeredGitFile := splitSlash (← readFirstLine (adminDir ++ [gitdirName]))
  Fallible.refuse (registeredGitFile.getLast? ≠ some kGitDirName ∨
    registeredGitFile.dropLast.getLast? ≠ some operation.workspace) .wrongWorkspace
  let checked ← detailed (Io.call .gitFsck) (fun _ => .integrityFailed)
  Fallible.refuse (checked ≠ .ok) .integrityFailed
  let listed ← detailed (Io.call .gitWorktreeList) (fun _ => .registryInconsistent)
  Fallible.refuse (¬listed.any (fun t => (RelPath.text registeredGitFile.dropLast).isPrefixOf (slash :: RelPath.text t.path)) ∨
    (operation.target ≠ [] ∧ ¬listed.any (fun t => match t.head with
      | some branch => (RelPath.text operation.target).isPrefixOf branch
      | none => false))) .registryInconsistent

/-- `load_workspace_record`: a read that fails finds no record. -/
def loadWorkspaceRecord {ε : Type} (name : Name) : Fallible ε (Option WorkspaceRecord) :=
  Prog.call (.loadWorkspaceRecord name) (fun r => Prog.ret (.ok (r.toOption.getD none)))

/-- `load_project_record`: a read that fails finds no record. -/
def loadProjectRecord {ε : Type} : Fallible ε (Option ProjectRecord) :=
  Prog.call .loadProjectRecord (fun r => Prog.ret (.ok (r.toOption.getD none)))

/-- `load_all_workspace_records`: a read that fails finds no records. -/
def loadAllWorkspaceRecords {ε : Type} : Fallible ε (List WorkspaceRecord) :=
  Prog.call .loadAllWorkspaceRecords (fun r => Prog.ret (.ok (r.toOption.getD [])))

/-- `load_workspace_tombstones`: a read that fails finds no tombstones. -/
def loadWorkspaceTombstones {ε : Type} (name : Name) : Fallible ε (List RelPath) :=
  Prog.call (.loadWorkspaceTombstones name) (fun r => Prog.ret (.ok (r.toOption.getD [])))

/-- The rollback of a Workspace creation. -/
def rollbackWorkspaceCreate (projectRoot tribiosDir workspacesDir : HostPath) (operation : RecoveryOperation)
    (recorded : Bool) : Fallible RecoveryDetail Unit := do
  match ← loadProjectRecord with
  | none => Fallible.fail .projectRecordMissing
  | some project =>
    detailed (removeAll (workspacesDir ++ [operation.workspace])) .removeFailed
    rollbackLinkedWorktreeCreation projectRoot (RelPath.text operation.target)
      (project.mountPoint ++ [operation.workspace]) (tribiosDir ++ [stagingName, operation.workspace])
    Fallible.onlyIf recorded (detailed (Io.call (.setWorkspaceState operation.workspace .reclaimed)) .storeFailed)

/-- The branch of `recover_interrupted_operations` for `workspace_create`. -/
def recoverWorkspaceCreate (projectRoot tribiosDir workspacesDir : HostPath) (operation : RecoveryOperation) :
    Fallible RecoveryDetail Unit := do
  let record ← loadWorkspaceRecord operation.workspace
  settleWorkspaceCreate record
  detailed (Io.call (.abandonRecoveryOperation operation.id)) .storeFailed
where
  /-- The record of an active Workspace is validated, any other creation is rolled back. -/
  settleWorkspaceCreate (record : Option WorkspaceRecord) : Fallible RecoveryDetail Unit :=
    if record.map (·.state) = some .active then
      validateCompletedWorkspaceCreation projectRoot (workspacesDir ++ [operation.workspace, upperName]) operation
    else rollbackWorkspaceCreate projectRoot tribiosDir workspacesDir operation record.isSome

/-- The branch of `recover_interrupted_operations` for `workspace_remove`. -/
def recoverWorkspaceRemove (projectRoot workspacesDir : HostPath) (operation : RecoveryOperation) :
    Fallible RecoveryDetail Unit := do
  let record ← loadWorkspaceRecord operation.workspace
  if record.isNone ∨ record.map (·.state) = some .active then
    detailed (Io.call (.abandonRecoveryOperation operation.id)) .storeFailed
  else
    match ← loadProjectRecord with
    | none => Fallible.fail .projectRecordMissing
    | some project =>
      unregisterLinkedWorktree projectRoot (project.mountPoint ++ [operation.workspace])
      detailed (removeAll (workspacesDir ++ [operation.workspace])) .removeFailed
      detailed (Io.call (.fsyncDirectory workspacesDir)) .syncFailed
      detailed (Io.call (.clearTombstones operation.workspace)) .storeFailed
      detailed (Io.call (.setWorkspaceReclamationDuration operation.workspace 0)) .storeFailed
      detailed (Io.call (.setWorkspaceState operation.workspace .reclaimed)) .storeFailed
      detailed (Io.call (.abandonRecoveryOperation operation.id)) .storeFailed

/-! ## Engine records -/

/-- The checks of a record before it is settled. -/
def validateRecord (operation : RecoveryOperation) : Fallible RecoveryDetail Unit := do
  Fallible.refuse (operation.workspace = [] ∨ slash ∈ operation.workspace ∨
    validRecoveryRelativePath operation.path false = false ∨ validRecoveryRelativePath operation.target true = false)
    .unsafePath
  Fallible.refuse (operation.kind ≠ .unlink ∧ operation.kind ≠ .rmdir ∧ operation.kind.staged = false) .unknownKind

/-- A prepared record is rolled back. -/
def rollbackPrepared (operation : RecoveryOperation) (stage : HostPath) : Fallible RecoveryDetail Unit := do
  detailed (removeAll stage) .removeFailed
  detailed (Io.call (.abandonRecoveryOperation operation.id)) .storeFailed

/-- A publishing record is applied. -/
def applyPublishing (operation : RecoveryOperation) (upperDir stage : HostPath) : Fallible RecoveryDetail Unit :=
  match operation.kind with
  | .unlink => removeUpperEntry (upperDir ++ operation.path) false
  | .rmdir => removeUpperEntry (upperDir ++ operation.path) true
  | _ => do
    publishStagedEntry stage (upperDir ++ operation.destinationRelative)
    Fallible.onlyIf (operation.kind = .rename) (removeUpperEntry (upperDir ++ operation.path) true)

/-- A record of the engine is validated, and rolled back or applied and finished. -/
def recoverEngineRecord (workspacesDir : HostPath) (operation : RecoveryOperation) : Fallible RecoveryDetail Unit := do
  validateRecord operation
  let workspaceDir := workspacesDir ++ [operation.workspace]
  let stage := workspaceDir ++ [recoveryName, decimal operation.id]
  if operation.phase = .prepared then rollbackPrepared operation stage
  else do
    applyPublishing operation (workspaceDir ++ [upperName]) stage
    detailed (Io.call (.finishRecoveryOperation operation)) .storeFailed

/-- One round of the loop of `recover_interrupted_operations`. -/
def recoverOperation (projectRoot tribiosDir workspacesDir : HostPath) (operation : RecoveryOperation) :
    Fallible RecoveryDetail Unit :=
  match operation.kind with
  | .workspaceCreate => recoverWorkspaceCreate projectRoot tribiosDir workspacesDir operation
  | .workspaceRemove => recoverWorkspaceRemove projectRoot workspacesDir operation
  | _ => recoverEngineRecord workspacesDir operation

/-- One Workspace directory of the final sweep. -/
def reclaimRecoveryDirectory (workspaceDir : HostPath) : Fallible RecoveryFailure Unit := do
  let directory ← isDirectory workspaceDir
  Fallible.onlyIf directory ((removeAll (workspaceDir ++ [recoveryName])).orElseDo
    (fun x => Fallible.fail (.cannotReclaim (workspaceDir ++ [recoveryName]) x)))

/-- What `recover_interrupted_operations` does once every record is settled. -/
def reclaimLeftovers (tribiosDir workspacesDir : HostPath) : Fallible RecoveryFailure Unit := do
  let listing ← (Io.call (.openDirectory workspacesDir)).attempt
  Fallible.forEach (fun child => reclaimRecoveryDirectory (workspacesDir ++ [child.1])) (listing.toOption.getD [])
  let stagingDir := tribiosDir ++ [stagingName]
  (removeAll stagingDir).orElseDo (fun x => Fallible.fail (.cannotReclaimStaging x))
  (createDirectories stagingDir).orFail .cannotRecreateStaging
  (syncParentDirectory stagingDir).orFail .cannotRecreateStaging

def recoverInterruptedOperations (projectRoot tribiosDir workspacesDir : HostPath) : Fallible RecoveryFailure Unit := do
  let loaded ← (Io.call .loadRecoveryOperations).orElseDo (fun x => Fallible.fail (.journalUnreadable x))
  Fallible.forEach (fun operation =>
    (recoverOperation projectRoot tribiosDir workspacesDir operation).orElseDo
      (fun d => Fallible.fail (.refused operation d))) loaded
  reclaimLeftovers tribiosDir workspacesDir

/-! ## The checks at startup -/

/-- Why `validate_project_storage_invariants` refuses a Project. -/
inductive StorageFailure where
  | database (code : Errno)
  | baseMissing | projectRecordMissing
  | wrongProject (root : HostPath)
  | journalUnreadable (code : Errno)
  | unsettled (id : Nat)
  | unsafeName (name : Name)
  | creating (name : Name)
  | upperMissing (name : Name)
  | workspace (name : Name) (detail : RecoveryDetail)
  | unsafeTombstone (name : Name) (path : RelPath)
  deriving DecidableEq, Repr

/-- The record `validate_project_storage_invariants` makes up for an active Workspace. -/
def validateOperation (workspace : WorkspaceRecord) : RecoveryOperation :=
  { workspace := workspace.name, kind := .other [118, 97, 108, 105, 100, 97, 116, 101], path := [kGitDirName],
    target := RelPath.ofText workspace.branch }

/-- What is checked of an active Workspace. -/
def validateActiveWorkspace (projectRoot workspacesDir : HostPath) (workspace : WorkspaceRecord) :
    Fallible StorageFailure Unit := do
  let upperDir := workspacesDir ++ [workspace.name, upperName]
  let upper ← isDirectory upperDir
  Fallible.refuse (upper = false) (.upperMissing workspace.name)
  (validateCompletedWorkspaceCreation projectRoot upperDir (validateOperation workspace)).orElseDo
    (fun d => Fallible.fail (.workspace workspace.name d))

/-- One round of the loop over the Workspace records. -/
def validateWorkspace (projectRoot workspacesDir : HostPath) (workspace : WorkspaceRecord) : Fallible StorageFailure Unit := do
  Fallible.refuse (workspace.name = [] ∨ slash ∈ workspace.name ∨ workspace.name = dot ∨ workspace.name = dotdot)
    (.unsafeName workspace.name)
  Fallible.refuse (workspace.state = .creating) (.creating workspace.name)
  Fallible.onlyIf (workspace.state = .active) (validateActiveWorkspace projectRoot workspacesDir workspace)
  let tombstones ← loadWorkspaceTombstones workspace.name
  Fallible.forEach (fun tombstone => Fallible.refuse (validRecoveryRelativePath tombstone false = false)
    (.unsafeTombstone workspace.name tombstone)) tombstones

def validateProjectStorageInvariants (projectRoot baseDir workspacesDir : HostPath) : Fallible StorageFailure Unit := do
  (Io.call .validateDatabaseIntegrity).orElseDo (fun x => Fallible.fail (.database x))
  let base ← isDirectory baseDir
  Fallible.refuse (base = false) .baseMissing
  match ← loadProjectRecord with
  | none => Fallible.fail .projectRecordMissing
  | some project =>
    let recorded ← (Io.call (.weaklyCanonical project.root)).orElseDo (fun _ => Fallible.fail (.wrongProject project.root))
    let opened ← (Io.call (.weaklyCanonical projectRoot)).orElseDo (fun _ => Fallible.fail (.wrongProject project.root))
    Fallible.refuse (recorded ≠ opened) (.wrongProject project.root)
    let pending ← (Io.call .loadRecoveryOperations).orElseDo (fun x => Fallible.fail (.journalUnreadable x))
    match pending with
    | operation :: _ => Fallible.fail (.unsettled operation.id)
    | [] => do
      let records ← loadAllWorkspaceRecords
      Fallible.forEach (validateWorkspace projectRoot workspacesDir) records

end TribiosVfs

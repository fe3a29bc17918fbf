import TribiosVfs.EngineMonad

/-!
# The Workspace engine (core/workspace_engine.cpp)

The lookups, the copy-up and the journaled publication of one Workspace, and its operations. `trigger_failpoint` is left out: it
does nothing, or stops the process, and the process can stop between any two calls.
-/

namespace TribiosVfs

/-! ## Inode numbers -/

/-- `workspace_inode_salt`: FNV-1a. -/
def workspaceInodeSalt (workspace : Name) : UInt64 :=
  workspace.foldl (fun hash byte => (hash ^^^ byte.toUInt64) * 1099511628211) 14695981039346656037

/-- `salted_workspace_inode`: the splitmix64 finalizer, with zero reserved. -/
def saltedWorkspaceInode (salt backingInode : UInt64) : UInt64 :=
  let value := backingInode + salt
  let value := (value ^^^ (value >>> 30)) * 0xbf58476d1ce4e5b9
  let value := (value ^^^ (value >>> 27)) * 0x94d049bb133111eb
  let value := value ^^^ (value >>> 31)
  if value = 0 then 1 else value

def Engine.workspaceInodeFor (e : Engine) (backing : Node) : UInt64 :=
  saltedWorkspaceInode e.inodeSalt (UInt64.ofNat backing.attrs.ino)

/-! ## Lookups -/

/-- Where a visible entry comes from. -/
inductive Layer where
  | upper | base
  deriving DecidableEq, Repr

/-- `S_IFMT`'s bits of an entry. -/
def Node.fileType (n : Node) : Nat :=
  match n.contents with
  | .file _ => 32768
  | .dir => 16384
  | .symlink _ => 40960

/-- `st_size`; what a directory's is, is up to the file system. -/
def Node.size (n : Node) : Nat :=
  match n.contents with
  | .file data => data.length
  | .dir => 0
  | .symlink target => target.length

structure Attr where
  ino : UInt64
  mode : Nat
  size : Nat
  mtime : Int
  atime : Int
  ctime : Int
  fromUpper : Bool
  deriving DecidableEq, Repr

/-- `attr_from_stat`, without the link count. -/
def attrFromStat (st : Node) (ino : UInt64) (fromUpper : Bool) : Attr :=
  ⟨ino, st.fileType + st.attrs.perm, st.size, st.attrs.mtime, st.attrs.atime, st.attrs.ctime, fromUpper⟩

def Engine.upperPath (e : Engine) (relative : RelPath) : HostPath := e.upperDir ++ relative

def Engine.basePath (e : Engine) (relative : RelPath) : HostPath := e.baseDir ++ relative

def Engine.layerPath (e : Engine) : Layer → RelPath → HostPath
  | .upper, relative => e.upperPath relative
  | .base, relative => e.basePath relative

/-- `base_is_visible`: no tombstone on the path or on an ancestor. -/
def baseIsVisible (tombstones : List RelPath) (relative : RelPath) : Bool :=
  relative.inits.all (fun path => path = [] ∨ path ∉ tombstones)

def findVisibleEntryLayer (relative : RelPath) (e : Engine) : Io (Option (Layer × Node)) := do
  match ← lstatPath (e.upperPath relative) with
  | some st => return some (.upper, st)
  | none =>
    if baseIsVisible e.tombstones relative then
      return (← lstatPath (e.basePath relative)).map (Layer.base, ·)
    else return none

/-- `entries[entry.name] = entry` in a `std::map`. -/
def insertEntry (entry : DirEntry) : List DirEntry → List DirEntry
  | [] => [entry]
  | x :: entries =>
    if entry.name < x.name then entry :: x :: entries
    else if entry.name = x.name then entry :: entries
    else x :: insertEntry entry entries

/-- The lambda of `merge_visible_directory_entries`; a directory that does not open adds nothing. -/
def mergeDirectory (relative : RelPath) (path : HostPath) (filterTombstones : Bool) (entries : List DirEntry)
    (e : Engine) : Io (List DirEntry) := do
  match ← (Io.call (.openDirectory path)).attempt with
  | .error _ => return entries
  | .ok listing =>
    return listing.foldl (fun entries child =>
      if filterTombstones && joinRelative relative child.1 ∈ e.tombstones then entries
      else insertEntry ⟨child.1, e.workspaceInodeFor child.2, child.2.fileType⟩ entries) entries

/-- The entries of a visible Base directory. -/
def mergeBaseDirectory (relative : RelPath) (e : Engine) : Io (List DirEntry) :=
  if baseIsVisible e.tombstones relative then mergeDirectory relative (e.basePath relative) true [] e else pure []

def mergeVisibleDirectoryEntries (relative : RelPath) (e : Engine) : Io (List DirEntry) := do
  let entries ← mergeBaseDirectory relative e
  mergeDirectory relative (e.upperPath relative) false entries e

/-- `forget_cached_directory_entries`: the listing of the parent, of the path, and of everything beneath it. -/
def forgetCachedDirectoryEntries (relative : RelPath) : EngineM Unit :=
  EngineM.modify (fun e => { e with directoryEntriesCache := e.directoryEntriesCache.filter (fun cached =>
    !(cached.1 == parentOf relative || isAtOrUnder relative cached.1)) })

def getattr (path : Bytes) : EngineM Attr := EngineM.reads (fun e => do
  match ← findVisibleEntryLayer (normalizeRelative path) e with
  | none => Fallible.fail .ENOENT
  | some (layer, st) => return attrFromStat st (e.workspaceInodeFor st) (layer = .upper))

/-- The computed listing of a directory. -/
def computeDirectoryEntries (relative : RelPath) (e : Engine) : Io (List DirEntry) := do
  match ← findVisibleEntryLayer relative e with
  | none => Fallible.fail .ENOENT
  | some (_, st) =>
    Fallible.refuse (st.isDir = false) .ENOTDIR
    mergeVisibleDirectoryEntries relative e

def readdir (path : Bytes) : EngineM (List DirEntry) := fun e =>
  let relative := normalizeRelative path
  match e.directoryEntriesCache.find? (fun cached => cached.1 = relative) with
  | some cached => .ret (.ok cached.2, e)
  | none => (do
    let out ← EngineM.reads (computeDirectoryEntries relative)
    EngineM.modify (fun e => { e with directoryEntriesCache := e.directoryEntriesCache ++ [(relative, out)] })
    return out : EngineM (List DirEntry)) e

def readlink (path : Bytes) : EngineM Bytes := EngineM.reads (fun e => do
  let relative := normalizeRelative path
  match ← findVisibleEntryLayer relative e with
  | none => Fallible.fail .ENOENT
  | some (layer, st) =>
    Fallible.refuse (st.isLnk = false) .EINVAL
    (Io.call (.readSymlink (e.layerPath layer relative))).orFail Errno.EIO)

/-! ## Copy-up -/

/-- `std::filesystem::path::parent_path`, on the paths the engine composes. -/
def parentPath (path : HostPath) : HostPath := path.dropLast

def syncParentDirectory (path : HostPath) : Io Unit := Io.call (.fsyncDirectory (parentPath path))

/-- `mkdir` that takes a directory already there. -/
def mkdirOrExisting (path : HostPath) (mode : Nat) : Io Unit :=
  (Io.call (.mkdir path mode)).orElseDo (fun x => if x = .EEXIST then pure () else Fallible.fail x)

/-- One round of the loop of `create_missing_upper_parent_directories`. -/
def createUpperParentDirectory (dir : RelPath) : EngineM Unit := do
  match ← EngineM.reads (fun e => lstatPath (e.upperPath dir)) with
  | some st => EngineM.refuse (st.isDir = false) .ENOTDIR
  | none =>
    match ← EngineM.reads (fun e =>
        if baseIsVisible e.tombstones dir then lstatPath (e.basePath dir) else pure none) with
    | none => EngineM.fail .ENOENT
    | some st =>
      EngineM.refuse (st.isDir = false) .ENOTDIR
      forgetCachedDirectoryEntries dir
      EngineM.reads (fun e => mkdirOrExisting (e.upperPath dir) st.attrs.perm)
      EngineM.reads (fun e => (syncParentDirectory (e.upperPath dir)).orFail Errno.EIO)

/-- The loop over the proper ancestors beneath `done`, the shallowest first. -/
def createUpperParentDirectories : RelPath → List Name → EngineM Unit
  | _, [] => pure ()
  | _, [_] => pure ()
  | done, name :: rest => do
    createUpperParentDirectory (done ++ [name])
    createUpperParentDirectories (done ++ [name]) rest

def createMissingUpperParentDirectories (relative : RelPath) : EngineM Unit := createUpperParentDirectories [] relative

/-- `materialize_visible_entry_at`. The recursion ends where the destination's path is longer than the host takes. -/
def materializeVisibleEntryAt (e : Engine) : Nat → RelPath → HostPath → Io Unit
  | 0, _, _ => Fallible.fail .ENAMETOOLONG
  | fuel + 1, relative, destination => do
    match ← findVisibleEntryLayer relative e with
    | none => Fallible.fail .ENOENT
    | some (layer, st) =>
      let source := e.layerPath layer relative
      match st.contents with
      | .dir =>
        mkdirOrExisting destination st.attrs.perm
        let children ← mergeVisibleDirectoryEntries relative e
        Fallible.forEach (fun child => materializeVisibleEntryAt e fuel (joinRelative relative child.name)
          (destination ++ [child.name])) children
        (Io.call (.utimes destination st.attrs.atime st.attrs.mtime)).ignore
      | .symlink _ =>
        let target ← (Io.call (.readSymlink source)).attempt
        (Io.call (.symlink (target.toOption.getD []) destination)).orFail Errno.EIO
      | .file _ =>
        (Io.call (.copyFile source destination)).orFail Errno.EIO
        Io.call (.chmod destination st.attrs.perm)
        Io.call (.utimes destination st.attrs.atime st.attrs.mtime)

/-- The copy of a visible entry at a stage. -/
def materialize (e : Engine) (relative : RelPath) (stage : HostPath) : Io Unit := do
  let fuel ← Io.call .pathBound
  materializeVisibleEntryAt e fuel relative stage

/-! ## Journaled publication -/

/-- The name `recovery`. -/
def recoveryName : Name := [114, 101, 99, 111, 118, 101, 114, 121]

def Engine.recoveryDir (e : Engine) : HostPath := parentPath e.upperDir ++ [recoveryName]

def Engine.stagePath (e : Engine) (id : Nat) : HostPath := e.recoveryDir ++ [decimal id]

/-- `std::filesystem::remove_all`. -/
def removeAll (path : HostPath) : Io Unit := do
  let entries ← Io.call (.listTree path)
  Fallible.forEach (fun entry => Io.call (.remove entry.1)) entries

/-- `remove_all` of a directory, `remove` of anything else. -/
def removeEntry (path : HostPath) (directory : Bool) : Io Unit :=
  if directory then removeAll path else Io.call (.remove path)

/-- `create_directories(recovery_dir)` and the flush of its parent. -/
def prepareRecoveryDirectory (e : Engine) : Io Unit := do
  (Io.call (.ensureDirectory e.recoveryDir)).orFail Errno.EIO
  syncParentDirectory e.recoveryDir

/-- `sync_entry_tree`. What lies beneath a directory is flushed before the directory. -/
def syncEntryTree (path : HostPath) : Io Unit := do
  let st ← Io.call (.lstat path)
  if st.isReg then Io.call (.fsyncFile path)
  else if st.isDir then
    match ← (Io.call (.listTree path)).attempt with
    | .error _ => Io.call (.fsyncDirectory path)
    | .ok entries =>
      Fallible.forEach (fun entry =>
        if entry.2.isReg then Io.call (.fsyncFile entry.1)
        else if entry.2.isDir then Io.call (.fsyncDirectory entry.1)
        else pure ()) entries
  else pure ()

/-- `remove_all(stage)` and `abandon_recovery_operation`, on the way to reporting an error. -/
def discardStage {α : Type} (e : Engine) (id : Nat) (x : Errno) : Io α := do
  (removeAll (e.stagePath id)).ignore
  (Io.call (.abandonRecoveryOperation id)).ignore
  Fallible.fail x

/-- The steps up to the publishing phase. An error of any of them discards the stage and the record. -/
def stageOperation {α : Type} (e : Engine) (id : Nat) (prepareStage : HostPath → Io α) : Io α :=
  Fallible.orElseDo (do
    let a ← prepareStage (e.stagePath id)
    Io.call (.injectedIoError .stageFlush)
    syncEntryTree (e.stagePath id)
    (Io.call (.fsyncDirectory e.recoveryDir)).orFail Errno.EIO
    Io.call (.injectedIoError .journalPhase)
    (Io.call (.setRecoveryOperationPhase id .publishing)).orFail Errno.EIO
    return a) (discardStage e id)

/-- `destination_relative`. -/
def RecoveryOperation.destinationRelative (operation : RecoveryOperation) : RelPath :=
  if operation.kind = .rename then operation.target else operation.path

/-- The faults injected before publication, and the publishing `rename`. An error discards the stage and the record. -/
def publishStage (e : Engine) (operation : RecoveryOperation) : Io Unit :=
  Fallible.orElseDo (do
    Io.call (.injectedIoError .publishRename)
    Io.call (.injectedIoError .publishDirectoryFlush)
    Io.call (.injectedIoError .journalFinish)
    Io.call (.rename (e.stagePath operation.id) (e.upperPath operation.destinationRelative)))
    (discardStage e operation.id)

/-- The removal of a rename's source from the upper tree. -/
def removeRenamedSource (e : Engine) (operation : RecoveryOperation) : Io Unit := do
  let source := e.upperPath operation.path
  let sourceWasMaterialized ← lstatPath source
  (removeAll source).orFail Errno.EIO
  Fallible.onlyIf sourceWasMaterialized.isSome ((syncParentDirectory source).orFail Errno.EIO)

/-- What the finished record changes of the tombstones in memory. -/
def Engine.finishTombstones (e : Engine) (operation : RecoveryOperation) : Engine :=
  let added := if operation.addPathTombstone ∧ operation.path ∉ e.tombstones then e.tombstones ++ [operation.path]
    else e.tombstones
  { e with tombstones :=
      if operation.dropTargetTombstones then added.filter (fun path => !isAtOrUnder operation.target path) else added }

/-- `finish_recovery_operation`, and then the same change in memory. -/
def finishOperation (operation : RecoveryOperation) : EngineM Unit := do
  EngineM.reads (fun _ => (Io.call (.finishRecoveryOperation operation)).orFail Errno.EIO)
  EngineM.modify (·.finishTombstones operation)

/-- The steps after the publishing `rename`. -/
def finishPublication (operation : RecoveryOperation) : EngineM Unit := do
  EngineM.reads (fun e => (syncParentDirectory (e.upperPath operation.destinationRelative)).orFail Errno.EIO)
  EngineM.reads (fun e => Fallible.onlyIf (operation.kind = .rename) (removeRenamedSource e operation))
  finishOperation operation
  EngineM.reads (fun e => (Io.call (.remove e.recoveryDir)).ignore)

/-- The record, the recovery directory and the stage. -/
def beginAndStage {α : Type} (e : Engine) (operation : RecoveryOperation) (prepareStage : HostPath → Io α) :
    Io (RecoveryOperation × α) := do
  let id ← (Io.call (.beginRecoveryOperation operation)).orFail Errno.EIO
  (prepareRecoveryDirectory e).orElseDo (fun x => do
    (Io.call (.abandonRecoveryOperation id)).ignore
    Fallible.fail x)
  let a ← stageOperation e id prepareStage
  return ({ operation with id := id, phase := .publishing }, a)

/-- `publish_staged_operation` up to the publishing phase. -/
def beginPublication {α : Type} (operation : RecoveryOperation) (prepareStage : Engine → HostPath → Io α) :
    EngineM (RecoveryOperation × α) := do
  EngineM.reads (fun _ => Io.call (.injectedIoError .journalWrite))
  forgetCachedDirectoryEntries operation.path
  EngineM.onlyIf (operation.kind = .rename) (forgetCachedDirectoryEntries operation.target)
  EngineM.reads (fun e => beginAndStage e operation (prepareStage e))

/-- `publish_staged_operation`. What `prepareStage` returns is what the source's lambdas leave in captured variables. -/
def publishStagedOperation {α : Type} (operation : RecoveryOperation) (prepareStage : Engine → HostPath → Io α) :
    EngineM α := do
  let begun ← beginPublication operation prepareStage
  EngineM.reads (fun e => publishStage e begun.1)
  finishPublication begun.1
  return begun.2

/-- Whether a removal leaves a tombstone: a visible Base entry would show through. -/
def baseEntryVisible (e : Engine) (relative : RelPath) : Io Bool :=
  if baseIsVisible e.tombstones relative then do return (← lstatPath (e.basePath relative)).isSome else pure false

/-- The removal of an entry of the upper tree. An error of it discards the record. -/
def removeUpper (e : Engine) (operation : RecoveryOperation) (directory : Bool) : Io Unit := do
  let found ← lstatPath (e.upperPath operation.path)
  Fallible.onlyIf found.isSome do
    (removeEntry (e.upperPath operation.path) directory).orElseDo (fun _ => do
      (Io.call (.abandonRecoveryOperation operation.id)).ignore
      Fallible.fail Errno.EIO)
    (syncParentDirectory (e.upperPath operation.path)).orFail Errno.EIO

/-- A record of this Workspace. -/
def Engine.operation (e : Engine) (kind : OperationKind) (path : RelPath) : RecoveryOperation :=
  { workspace := e.workspace, kind := kind, path := path }

/-- The row of a removal, and its publishing phase. -/
def journalRemoval (operation : RecoveryOperation) : Io RecoveryOperation := do
  let id ← (Io.call (.beginRecoveryOperation operation)).orFail Errno.EIO
  (Io.call (.setRecoveryOperationPhase id .publishing)).orElseDo (fun _ => do
    (Io.call (.abandonRecoveryOperation id)).ignore
    Fallible.fail Errno.EIO)
  return { operation with id := id, phase := .publishing }

/-- The record of a removal, in the publishing phase. -/
def beginRemoval (operation : RecoveryOperation) : EngineM RecoveryOperation := do
  let addPathTombstone ← EngineM.reads (fun e => baseEntryVisible e operation.path)
  forgetCachedDirectoryEntries operation.path
  EngineM.reads (fun _ => journalRemoval { operation with addPathTombstone := addPathTombstone })

/-- `remove_visible_entry_atomically`, with the record it fills in. -/
def removeOperation (operation : RecoveryOperation) (directory : Bool) : EngineM Unit := do
  let begun ← beginRemoval operation
  EngineM.reads (fun e => removeUpper e begun directory)
  finishOperation begun

def removeVisibleEntryAtomically (kind : OperationKind) (relative : RelPath) (directory : Bool) : EngineM Unit :=
  fun e => removeOperation (e.operation kind relative) directory e

/-- Parents, and the staged publication of an entry at a path. -/
def publishAt {α : Type} (kind : OperationKind) (relative : RelPath) (prepareStage : Engine → HostPath → Io α) :
    EngineM α := do
  createMissingUpperParentDirectories relative
  fun e => publishStagedOperation (e.operation kind relative) prepareStage e

/-- A stage that copies the visible entry and then changes the copy. -/
def copyAndChange {α : Type} (relative : RelPath) (change : HostPath → Io α) (e : Engine) (stage : HostPath) : Io α := do
  materialize e relative stage
  change stage

/-! ## Handles -/

def OpenFlags.forWriting (flags : OpenFlags) : Bool :=
  flags.access ≠ .rdonly || flags.append || flags.trunc || flags.creat

/-- The truncation of an `open` with `O_TRUNC`. -/
def truncateForOpen (relative : RelPath) (flags : OpenFlags) (layer : Layer) : EngineM Layer :=
  if flags.forWriting && flags.trunc then do
    publishAt .truncate relative (copyAndChange relative (fun stage => Io.call (.truncate stage 0)))
    return .upper
  else pure layer

/-- The creation or the checks of an `open`. -/
def createForOpen (relative : RelPath) (flags : OpenFlags) : EngineM Layer := do
  match ← EngineM.reads (findVisibleEntryLayer relative) with
  | none =>
    EngineM.refuse (flags.creat = false) .ENOENT
    publishAt .create relative (fun _ stage => Io.call (.createFile stage 420))
    return .upper
  | some (layer, st) =>
    EngineM.refuse st.isDir .EISDIR
    EngineM.refuse (flags.creat ∧ flags.excl) .EEXIST
    return layer

/-- A new entry of the handle table; `emplace` keeps an entry that is there. -/
def Engine.addHandle (e : Engine) (handle : OpenHandle) : Engine :=
  { e with
    nextHandle := e.nextHandle + 1
    handles := if e.handles.any (fun entry => entry.1 = e.nextHandle) then e.handles
      else e.handles ++ [(e.nextHandle, handle)] }

def openHandle (path : Bytes) (flags : OpenFlags) : EngineM Int := do
  let relative := normalizeRelative path
  EngineM.refuse (relative = []) .EISDIR
  let layer ← createForOpen relative flags
  let layer ← truncateForOpen relative flags layer
  let backing ← EngineM.reads (fun e => Io.call (.openFile (e.layerPath layer relative)
    (if layer = .base ∧ flags.forWriting then .rdonly else flags.access)))
  fun e => .ret (.ok e.nextHandle, e.addHandle ⟨some backing, flags, relative⟩)

def Engine.findHandle (e : Engine) (fd : Int) : Option OpenHandle :=
  (e.handles.find? (fun entry => entry.1 = fd)).map (·.2)

def readHandle (fd : Int) (size offset : Nat) : EngineM Bytes := EngineM.reads (fun e =>
  match e.findHandle fd with
  | none => Fallible.fail .EBADF
  | some handle => Io.call (.pread handle.backing size offset))

/-- The bytes of a write, on the stage. -/
def writeStage (data : Bytes) (offset : Nat) (stage : HostPath) : Io Nat := do
  let writeSize ← Io.call (.injectedShortWriteSize data.length)
  Io.call (.pwrite stage (data.take writeSize) offset)

/-- The handle's descriptor after the publication replaced the file. -/
def Engine.setBacking (e : Engine) (fd : Int) (backing : Option Descriptor) : Engine :=
  { e with handles := e.handles.map (fun entry =>
      if entry.1 = fd then (entry.1, { entry.2 with backing := backing }) else entry) }

/-- `close` of the old descriptor and `open` of the published file. -/
def reopenHandle (fd : Int) (handle : OpenHandle) : EngineM Unit := do
  match ← EngineM.attempt (EngineM.reads (fun e =>
      Io.call (.openFile (e.upperPath handle.relative) handle.flags.access))) with
  | .ok file => EngineM.modify (·.setBacking fd (some file))
  | .error x =>
    EngineM.modify (·.setBacking fd none)
    EngineM.fail x

def writeHandle (fd : Int) (data : Bytes) (offset : Nat) : EngineM Nat := fun e =>
  match e.findHandle fd with
  | none => .ret (.error .EBADF, e)
  | some handle => (do
    EngineM.refuse (handle.flags.access = .rdonly) .EBADF
    let accepted ← publishAt .write handle.relative (copyAndChange handle.relative (writeStage data offset))
    reopenHandle fd handle
    return accepted : EngineM Nat) e

def fsyncHandle (fd : Int) (_dataOnly : Bool) : EngineM Unit := EngineM.reads (fun e =>
  match e.findHandle fd with
  | none => Fallible.fail .EBADF
  | some handle => do
    Io.call (.fsyncDescriptor handle.backing)
    match ← lstatPath (e.upperPath handle.relative) with
    | none => pure ()
    | some _ => (syncParentDirectory (e.upperPath handle.relative)).orFail Errno.EIO)

/-- `sync_directory`, or `fsync` of the file. -/
def syncVisible (path : HostPath) (directory : Bool) : Io Unit :=
  if directory then Io.call (.fsyncDirectory path) else Io.call (.fsyncFile path)

def fsyncPath (path : Bytes) (_dataOnly directory : Bool) : EngineM Unit := EngineM.reads (fun e => do
  let relative := normalizeRelative path
  match ← findVisibleEntryLayer relative e with
  | none => Fallible.fail .ENOENT
  | some (layer, st) =>
    Fallible.refuse (directory ≠ st.isDir) (if directory then .ENOTDIR else .EISDIR)
    let visiblePath := e.layerPath layer relative
    syncVisible visiblePath directory
    Fallible.onlyIf (layer = .upper) ((syncParentDirectory visiblePath).orFail Errno.EIO))

def closeHandle (fd : Int) : EngineM Unit :=
  EngineM.modify (fun e => { e with handles := e.handles.filter (fun entry => entry.1 ≠ fd) })

/-- A computation with a handle that is closed whatever comes of it. -/
def withHandle {α : Type} (fd : Int) (m : EngineM α) : EngineM α := do
  let r ← m.attempt
  closeHandle fd
  fun e => .ret (r, e)

def readFile (path : Bytes) (size offset : Nat) : EngineM Bytes := do
  let fd ← openHandle path {}
  withHandle fd (readHandle fd size offset)

def writeFile (path data : Bytes) (offset : Nat) : EngineM Nat := do
  let fd ← openHandle path { access := .rdwr, creat := true }
  withHandle fd (writeHandle fd data offset)

/-! ## Namespace operations -/

/-- A new entry at a path: the root and an existing entry are refused. -/
def publishNew (kind : OperationKind) (relative : RelPath) (prepareStage : HostPath → Io Unit) : EngineM Unit := do
  EngineM.refuse (relative = []) .EEXIST
  let found ← EngineM.reads (findVisibleEntryLayer relative)
  EngineM.refuse (found.isSome) .EEXIST
  publishAt kind relative (fun _ => prepareStage)

def create (path : Bytes) (mode : Nat) : EngineM Unit :=
  publishNew .create (normalizeRelative path) (fun stage => Io.call (.createFile stage (permBits mode)))

/-- Any tombstone on the path stays: the new directory starts empty. -/
def mkdir (path : Bytes) (mode : Nat) : EngineM Unit :=
  publishNew .mkdir (normalizeRelative path) (fun stage => Io.call (.mkdir stage (permBits mode)))

def symlink (target linkPath : Bytes) : EngineM Unit :=
  publishNew .symlink (normalizeRelative linkPath) (fun stage => Io.call (.symlink target stage))

def unlink (path : Bytes) : EngineM Unit := do
  let relative := normalizeRelative path
  EngineM.refuse (relative = []) .EISDIR
  match ← EngineM.reads (findVisibleEntryLayer relative) with
  | none => EngineM.fail .ENOENT
  | some (_, st) =>
    EngineM.refuse st.isDir .EISDIR
    removeVisibleEntryAtomically .unlink relative false

def rmdir (path : Bytes) : EngineM Unit := do
  let relative := normalizeRelative path
  EngineM.refuse (relative = []) .EBUSY
  match ← EngineM.reads (findVisibleEntryLayer relative) with
  | none => EngineM.fail .ENOENT
  | some (_, st) =>
    EngineM.refuse (st.isDir = false) .ENOTDIR
    let children ← EngineM.reads (mergeVisibleDirectoryEntries relative)
    EngineM.refuse (children ≠ []) .ENOTEMPTY
    removeVisibleEntryAtomically .rmdir relative true

/-- The checks `rename` makes of an existing destination. -/
def checkRenameDestination (sourceStat : Node) (target : RelPath) : EngineM Unit := do
  match ← EngineM.reads (findVisibleEntryLayer target) with
  | none => pure ()
  | some (_, destinationStat) =>
    EngineM.refuse (sourceStat.isDir ∧ destinationStat.isDir = false) .ENOTDIR
    EngineM.refuse (sourceStat.isDir = false ∧ destinationStat.isDir) .EISDIR
    EngineM.onlyIf destinationStat.isDir do
      let destinationChildren ← EngineM.reads (mergeVisibleDirectoryEntries target)
      EngineM.refuse (destinationChildren ≠ []) .ENOTEMPTY

/-- The record of a rename. -/
def Engine.renameOperation (e : Engine) (source target : RelPath) (addPathTombstone : Bool) : RecoveryOperation :=
  { workspace := e.workspace, kind := .rename, path := source, target := target, addPathTombstone := addPathTombstone,
    dropTargetTombstones := true }

/-- `rename` once both paths are known to differ. -/
def renameEntry (source target : RelPath) : EngineM Unit := do
  match ← EngineM.reads (findVisibleEntryLayer source) with
  | none => EngineM.fail .ENOENT
  | some (_, sourceStat) =>
    checkRenameDestination sourceStat target
    createMissingUpperParentDirectories target
    let addPathTombstone ← EngineM.reads (fun e => baseEntryVisible e source)
    fun e => publishStagedOperation (e.renameOperation source target addPathTombstone)
      (fun e stage => materialize e source stage) e

def rename (fromPath toPath : Bytes) : EngineM Unit := do
  let source := normalizeRelative fromPath
  let target := normalizeRelative toPath
  EngineM.refuse (source = [] ∨ target = []) .EBUSY
  if source = target then pure ()
  else do
    EngineM.refuse (isAtOrUnder source target) .EINVAL
    renameEntry source target

/-- A change of the copy of an entry that must be visible. -/
def changeVisible (kind : OperationKind) (relative : RelPath) (change : HostPath → Io Unit) : EngineM Unit := do
  let found ← EngineM.reads (findVisibleEntryLayer relative)
  EngineM.refuse (found.isNone) .ENOENT
  publishAt kind relative (copyAndChange relative change)

def chmod (path : Bytes) (mode : Nat) : EngineM Unit :=
  changeVisible .chmod (normalizeRelative path) (fun stage => Io.call (.chmod stage (permBits mode)))

/-- `truncate` refuses a directory, which the other changes of a visible entry do not. -/
def truncate (path : Bytes) (size : Nat) : EngineM Unit := do
  let relative := normalizeRelative path
  match ← EngineM.reads (findVisibleEntryLayer relative) with
  | none => EngineM.fail .ENOENT
  | some (_, st) =>
    EngineM.refuse st.isDir .EISDIR
    publishAt .truncate relative (copyAndChange relative (fun stage => Io.call (.truncate stage size)))

def utimens (path : Bytes) (atime mtime : Int) : EngineM Unit :=
  changeVisible .utimens (normalizeRelative path) (fun stage => Io.call (.utimes stage atime mtime))

end TribiosVfs

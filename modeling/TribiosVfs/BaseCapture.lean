import TribiosVfs.CapturePolicy

/-!
# Capturing the Base state (core/base_capture.cpp, ProjectManager::configure)

`capture_directory` walks the Project tree and copies what the policy and the fixed rules leave into the Base directory, which is
part of the host. The invoking user owns what it writes and is not root: creating an entry takes write and search permission on
the directory, and writing a file takes write permission on it. The walk names every entry by its whole path and holds a descriptor
for each directory it stands in. The time a capture takes is left out of its figures.
-/

namespace TribiosVfs

/-- An excluded path, as `CaptureExclusion` reports it. -/
structure CaptureExclusion where
  path : RelPath
  directory : Bool
  decision : CaptureDecision
  deriving DecidableEq, Repr

structure CaptureStats where
  entryCount : Int64 := 0
  bytes : Int64 := 0
  excludedEntryCount : Int64 := 0
  excludedBytes : Int64 := 0
  exclusions : List CaptureExclusion := []
  deriving DecidableEq, Repr

/-- The errors of a capture, with the path they name. -/
inductive CaptureError where
  | notADirectory
  | cannotCreateBase (code : Errno)
  | cannotRead (relative : RelPath)
  | cannotRecreateSymlink (child : RelPath) (code : Errno)
  | cannotCreate (child : RelPath) (code : Errno)
  | cannotCopy (child : RelPath) (code : Errno)
  | cannotWritePolicy (code : Errno)
  | cannotPreservePolicy (code : Errno)
  deriving DecidableEq, Repr

/-- What a capture has done so far. -/
structure CaptureState where
  host : Host
  stats : CaptureStats := {}

/-- How a step of a capture ends. -/
abbrev Captured := Except CaptureError Unit × CaptureState

/-- The next step, unless this one failed. -/
def Captured.andThen (r : Captured) (f : CaptureState → Captured) : Captured :=
  match r with
  | (.ok (), s) => f s
  | (.error e, s) => (.error e, s)

/-! ## Writing as the invoking user -/

/-- `EACCES`. -/
def accessDenied : Errno := .code 13
/-- `EMFILE`. -/
def noDescriptor : Errno := .code 24

/-- The search permission of the owner. -/
def Host.maySearch (h : Host) (p : HostPath) : Bool := match nodeAt h.tree p with
  | some n => n.attrs.perm.testBit 6
  | none => false

/-- The write permission of the owner. -/
def Host.mayWrite (h : Host) (p : HostPath) : Bool := match nodeAt h.tree p with
  | some n => n.attrs.perm.testBit 7
  | none => false

/-- Creating an entry takes both permissions on its directory. -/
def Host.mayCreate (h : Host) (p : HostPath) : Bool := h.maySearch p.dropLast && h.mayWrite p.dropLast

/-- A path looked up in a directory the user may search. -/
def Host.lookAt {α : Type} (h : Host) (follow : Bool) (p : HostPath) (f : HostPath → Except Errno α × Host) :
    Except Errno α × Host :=
  h.at follow p (fun q => if h.maySearch q.dropLast then f q else (.error accessDenied, h))

/-- `std::filesystem::create_directories` of a directory whose parent is there. -/
def Host.makeDirectory (h : Host) (p : HostPath) : Except Errno Unit × Host :=
  h.lookAt true p (fun q => match nodeAt h.tree q with
    | some n => (if n.isDir then .ok () else .error .ENOTDIR, h)
    | none => if h.mayCreate q then (.ok (), h.addEntry q .dir (h.directoryPerm q.dropLast 511)) else (.error accessDenied, h))

/-- `std::filesystem::create_symlink`. -/
def Host.makeSymlink (h : Host) (target : Bytes) (p : HostPath) : Except Errno Unit × Host :=
  if cStr target = [] then (.error .ENOENT, h)
  else h.lookAt false p (fun q => match nodeAt h.tree q with
    | some _ => (.error .EEXIST, h)
    | none => if h.mayCreate q then (.ok (), h.addEntry q (.symlink (cStr target)) 511) else (.error accessDenied, h))

/-- A file opened for writing and truncated, or made with a mode, and its new bytes. -/
def Host.writeWhole (h : Host) (p : HostPath) (data : Bytes) (perm : Nat) : Except Errno Unit × Host :=
  h.lookAt true p (fun q => match nodeAt h.tree q with
    | some n => match n.contents with
      | .file _ =>
        if n.attrs.perm.testBit 7 then
          (.ok (), h.alter q (fun n => ({ n with contents := .file data } : Node).touched h.now))
        else (.error accessDenied, h)
      | .dir => (.error .EISDIR, h)
      | .symlink _ => (.error .ELOOP, h)
    | none => if h.mayCreate q then (.ok (), h.addEntry q (.file data) perm) else (.error accessDenied, h))

/-- `chmod` of an entry the user owns, in a directory it may search. -/
def Host.changeMode (h : Host) (p : HostPath) (mode : Nat) : Except Errno Unit × Host :=
  h.lookAt true p (fun q => match nodeAt h.tree q with
    | none => (.error .ENOENT, h)
    | some _ => (.ok (), h.alter q (fun n => { n with attrs := { n.attrs with perm := permBits mode, ctime := h.now } })))

/-! ## The walk -/

/-- `CaptureWalk`; `base` is none for a dry run. -/
structure CaptureWalk where
  tree : ProjectTree
  base : Option HostPath
  policy : CapturePolicy

/-- A write into the Base directory, which a dry run leaves out. -/
def CaptureWalk.write (walk : CaptureWalk) (child : RelPath) (s : CaptureState)
    (f : Host → HostPath → Except Errno Unit × Host) (e : Errno → CaptureError) : Captured :=
  match walk.base with
  | none => (.ok (), s)
  | some base =>
    if walk.tree.limits.takes (base ++ child) = false then (.error (e .ENAMETOOLONG), s)
    else match f s.host (base ++ child) with
      | (.ok (), h) => (.ok (), { s with host := h })
      | (.error x, h) => (.error (e x), { s with host := h })

/-- A change of mode whose own result nobody looks at. -/
def CaptureWalk.chmod (walk : CaptureWalk) (child : RelPath) (perm : Nat) (s : CaptureState) : CaptureState :=
  match walk.base with
  | none => s
  | some base => { s with host := (s.host.changeMode (base ++ child) perm).2 }

/-- A regular file's size. -/
def SourceNode.fileBytes (n : SourceNode) : Nat := match n.kind with
  | .file data => data.length
  | _ => 0

/-- `count_excluded_tree`. -/
def countExcludedTree (tree : ProjectTree) : Nat → RelPath → SourceNode → CaptureStats → CaptureStats
  | 0, _, _, stats => stats
  | fuel + 1, path, st, stats =>
    let stats := { stats with
      excludedEntryCount := stats.excludedEntryCount + 1
      excludedBytes := stats.excludedBytes + .ofNat st.fileBytes }
    if st.isDir && st.readable && tree.opens path.length then
      (tree.entries.names path).foldl (fun stats name => match tree.lstatIn st (path ++ [name]) with
        | none => stats
        | some child =>
          if child.device ≠ tree.root.device ∨ child.isCapturable = false then stats
          else countExcludedTree tree fuel (path ++ [name]) child stats) stats
    else stats

/-- A bound on the depth of the Project tree, for the recursions over it. -/
def ProjectTree.fuel (tree : ProjectTree) : Nat := tree.entries.depth + 1

/-- The names the walk passes over at the root. -/
def isReserved (relative : RelPath) (name : Name) : Bool :=
  relative = [] && (name = kGitDirName || name = kTribiosDirName || name = kCapturePolicyFileName)

/-- `std::filesystem::copy_file`: a descriptor for the file in the Project, and one for its copy. -/
def copyFile (tree : ProjectTree) (child : RelPath) (st : SourceNode) (data : Bytes) (h : Host) (p : HostPath) :
    Except Errno Unit × Host :=
  if tree.opens child.length = false then (.error noDescriptor, h)
  else if st.readable = false then (.error accessDenied, h)
  else if tree.opens (child.length + 1) = false then (.error noDescriptor, h)
  else h.writeWhole p data (permBits st.perm)

/-- The copy of an entry that is not excluded; `recurse` captures what lies beneath a directory. -/
def captureKept (walk : CaptureWalk) (recurse : RelPath → SourceNode → CaptureState → Captured) (child : RelPath)
    (st : SourceNode) (s : CaptureState) : Captured :=
  match st.kind with
  | .symlink target => walk.write child s (fun h p => h.makeSymlink target p) (.cannotRecreateSymlink child)
  | .dir => (walk.write child s (fun h p => h.makeDirectory p) (.cannotCreate child)).andThen (fun s =>
      recurse child st (walk.chmod child st.perm s))
  | .file data => (walk.write child s (copyFile walk.tree child st data) (.cannotCopy child)).andThen (fun s =>
      let s := walk.chmod child st.perm s
      (.ok (), { s with stats := { s.stats with bytes := s.stats.bytes + .ofNat data.length } }))
  | .special => (.ok (), s)

/-- One entry of the loop of `capture_directory`. -/
def captureEntry (walk : CaptureWalk) (recurse : RelPath → SourceNode → CaptureState → Captured) (relative : RelPath)
    (dir : SourceNode) (name : Name) (s : CaptureState) : Captured :=
  if isReserved relative name then (.ok (), s)
  else match walk.tree.lstatIn dir (joinRelative relative name) with
    | none => (.ok (), s)
    | some st =>
      if st.device ≠ walk.tree.root.device ∨ st.isCapturable = false then (.ok (), s)
      else
        let child := joinRelative relative name
        let decision := walk.policy.decide child st.isDir
        if decision.excluded then
          let stats := countExcludedTree walk.tree walk.tree.fuel child st s.stats
          (.ok (), { s with stats := { stats with exclusions := stats.exclusions ++ [⟨child, st.isDir, decision⟩] } })
        else (captureKept walk recurse child st s).andThen (fun s =>
          (.ok (), { s with stats := { s.stats with entryCount := s.stats.entryCount + 1 } }))

def captureEach (f : Name → CaptureState → Captured) : List Name → CaptureState → Captured
  | [], s => (.ok (), s)
  | name :: names, s => (f name s).andThen (captureEach f names)

/-- `capture_directory`. -/
def captureDirectory (walk : CaptureWalk) : Nat → RelPath → SourceNode → CaptureState → Captured
  | 0, relative, _, s => (.error (.cannotRead relative), s)
  | fuel + 1, relative, dir, s =>
    if dir.readable = false || walk.tree.opens relative.length = false then (.error (.cannotRead relative), s)
    else captureEach (captureEntry walk (captureDirectory walk fuel) relative dir) (walk.tree.entries.names relative) s

/-- `write_compiled_policy`, with what `walk_project` counts of it. -/
def writeCompiledPolicy (walk : CaptureWalk) (s : CaptureState) : Captured :=
  if walk.policy.present then
    ((walk.write [kCapturePolicyFileName] s (fun h p =>
        if walk.tree.opens 0 then h.writeWhole p walk.policy.source (h.maskPerm 438) else (.error noDescriptor, h))
      .cannotWritePolicy).andThen (fun s =>
        walk.write [kCapturePolicyFileName] s (fun h p => h.changeMode p walk.policy.sourceMode) .cannotPreservePolicy)).andThen
      (fun s => (.ok (), { s with stats := { s.stats with
        bytes := s.stats.bytes + .ofNat walk.policy.source.length
        entryCount := s.stats.entryCount + 1 } }))
  else (.ok (), s)

/-- Every missing directory on the way. -/
def createBaseDirectories (s : CaptureState) : List HostPath → Captured
  | [] => (.ok (), s)
  | p :: ps => match s.host.ensureDirectory p with
    | (.ok (), h) => createBaseDirectories { s with host := h } ps
    | (.error x, h) => (.error (.cannotCreateBase x), { s with host := h })

/-- `std::filesystem::create_directories`, which looks at the whole path before it makes anything. -/
def createDirectoriesWithin (limits : Limits) (p : HostPath) (s : CaptureState) : Captured :=
  if limits.takes p then createBaseDirectories s p.inits else (.error (.cannotCreateBase .ENAMETOOLONG), s)

/-- The directory a capture writes into; a dry run has none. -/
def createBase (walk : CaptureWalk) (s : CaptureState) : Captured :=
  match walk.base with
  | none => (.ok (), s)
  | some base => createDirectoriesWithin walk.tree.limits base s

/-- `walk_project`. -/
def walkProject (walk : CaptureWalk) (h : Host) : Captured :=
  if walk.tree.takes [] = false || walk.tree.root.isDir = false then (.error .notADirectory, ⟨h, {}⟩)
  else
    ((createBase walk ⟨h, {}⟩).andThen (writeCompiledPolicy walk)).andThen
      (captureDirectory walk walk.tree.fuel [] walk.tree.root)

/-- `capture_base_state`. -/
def captureBaseState (tree : ProjectTree) (baseDir : HostPath) (policy : CapturePolicy) (h : Host) : Captured :=
  walkProject ⟨tree, some baseDir, policy⟩ h

/-- `plan_base_state_capture`. -/
def planBaseStateCapture (tree : ProjectTree) (policy : CapturePolicy) (h : Host) : Captured :=
  walkProject ⟨tree, none, policy⟩ h

/-! ## configure -/

/-- The names of the directories under `.tribios`. -/
def baseName : Name := [98, 97, 115, 101]
def workspacesName : Name := [119, 111, 114, 107, 115, 112, 97, 99, 101, 115]
def mntName : Name := [109, 110, 116]

/-- The errors of `configure`. -/
inductive ConfigureError where
  | notADirectory | notAGitProject | alreadyConfigured
  | policy (e : PolicyError)
  | cannotCreate (dir : HostPath) (code : Errno)
  | capture (e : CaptureError)
  | step (name : Nat)
  deriving DecidableEq, Repr

/-- The host, and whether the database file is there. -/
structure ConfigureState where
  host : Host
  database : Bool

/-- The steps of `configure` around the capture that can fail, in their order: the check of the backing layout, the flush of the
Base directory, the capture of the Git index, the opening of the database, the Project record and the last flush. -/
structure ConfigureFaults where
  layout : Bool := false
  sync : Bool := false
  index : Bool := false
  openDatabase : Bool := false
  record : Bool := false
  flush : Bool := false
  deriving DecidableEq, Repr

/-- `create_directories` of the directories of a Project. -/
def createProjectDirectories (limits : Limits) (h : Host) : List HostPath → Except ConfigureError Unit × Host
  | [] => (.ok (), h)
  | p :: ps => match createDirectoriesWithin limits p ⟨h, {}⟩ with
    | (.ok (), s) => createProjectDirectories limits s.host ps
    | (.error (.cannotCreateBase x), s) => (.error (.cannotCreate p x), s.host)
    | (.error e, s) => (.error (.capture e), s.host)

/-- What `configure` does once the capture is done: the database is there from the opening on. -/
def finishConfigure (f : ConfigureFaults) (stats : CaptureStats) (h : Host) : Except ConfigureError CaptureStats × ConfigureState :=
  if f.sync then (.error (.step 1), ⟨h, false⟩)
  else if f.index then (.error (.step 2), ⟨h, false⟩)
  else if f.openDatabase then (.error (.step 3), ⟨h, false⟩)
  else if f.record then (.error (.step 4), ⟨h, true⟩)
  else if f.flush then (.error (.step 5), ⟨h, true⟩)
  else (.ok stats, ⟨h, true⟩)

/-- The capture of `configure`, and what follows it. -/
def captureAndFinish (tree : ProjectTree) (tribiosDir : HostPath) (policy : CapturePolicy) (f : ConfigureFaults) (h : Host) :
    Except ConfigureError CaptureStats × ConfigureState :=
  match captureBaseState tree (tribiosDir ++ [baseName]) policy h with
  | (.error e, s) => (.error (.capture e), ⟨s.host, false⟩)
  | (.ok (), s) => finishConfigure f s.stats s.host

/-- `ProjectManager::configure`; the mount point is the default one. -/
def configure (tree : ProjectTree) (tribiosDir : HostPath) (force : Bool) (f : ConfigureFaults) (c : ConfigureState) :
    Except ConfigureError CaptureStats × ConfigureState :=
  if tree.takes [] = false || tree.root.isDir = false then (.error .notADirectory, c)
  else if (tree.lstat [kGitDirName]).isNone then (.error .notAGitProject, c)
  else if c.database && !force then (.error .alreadyConfigured, c)
  else match CapturePolicy.loadFromProject tree with
    | .error e => (.error (.policy e), c)
    | .ok policy =>
      let h := if force then { c.host with tree := c.host.tree.keep (fun q => ¬tribiosDir <+: q) } else c.host
      match createProjectDirectories tree.limits h
          [tribiosDir, tribiosDir ++ [workspacesName], tribiosDir ++ [stagingName], tribiosDir ++ [mntName]] with
      | (.error e, h) => (.error e, ⟨h, false⟩)
      | (.ok (), h) =>
        if f.layout then (.error (.step 0), ⟨h, false⟩) else captureAndFinish tree tribiosDir policy f h

end TribiosVfs

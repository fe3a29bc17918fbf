import TribiosVfs.ProjectManager

/-!
# The mounted view (fuse/fuse_adapter.cpp)

`tri_getattr`, what the mount reports of a path, and the directory handles of `tri_opendir` and `tri_readdir`. The first segment
of a path under the mount point is a Workspace's name.
-/

namespace TribiosVfs

/-- `ViewPath`. -/
inductive ViewPath where
  | root
  | inside (workspace : Name) (relative : RelPath)
  deriving DecidableEq, Repr

def parseProjectViewPath (path : Bytes) : ViewPath :=
  match normalizeRelative path with
  | [] => .root
  | workspace :: relative => .inside workspace relative

/-- `find_active_workspace_engine`. -/
def Manager.findActiveWorkspaceEngine (m : Manager) (name : Name) : Option Engine :=
  (m.engines.find? (fun entry => entry.1 = name)).map (·.2)

/-- What `getuid` and `getgid` return. -/
structure Credentials where
  uid : Nat
  gid : Nat
  deriving DecidableEq, Repr

/-- The `struct stat` the mount fills, without the link count. -/
structure ViewStat where
  ino : UInt64
  mode : Nat
  size : Nat
  uid : Nat
  gid : Nat
  mtime : Int
  atime : Int
  ctime : Int
  deriving DecidableEq, Repr

def populateStatFromAttributes (daemon : Credentials) (attr : Attr) : ViewStat :=
  ⟨attr.ino, attr.mode, attr.size, daemon.uid, daemon.gid, attr.mtime, attr.atime, attr.ctime⟩

/-- `kProjectViewRootInode`. -/
def kProjectViewRootInode : UInt64 := 1

/-- `tri_getattr`. -/
def triGetattr (daemon : Credentials) (m : Manager) (path : Bytes) : Io ViewStat :=
  match parseProjectViewPath path with
  | .root => pure ⟨kProjectViewRootInode, 16384 + 493, 0, daemon.uid, daemon.gid, 0, 0, 0⟩
  | .inside workspace relative =>
    match m.findActiveWorkspaceEngine workspace with
    | none => Fallible.fail .ENOENT
    | some e => Prog.bind (getattr relative.text e) (fun r =>
      Prog.ret (r.1.map (populateStatFromAttributes daemon)))

/-! ## Directory handles -/

/-- An engine's memory after an operation. -/
def Manager.putEngine (m : Manager) (name : Name) (e : Engine) : Manager :=
  { m with engines := m.engines.map (fun entry => if entry.1 = name then (name, e) else entry) }

/-- `active_workspace_names`, in the order of the `std::map`. -/
def Manager.activeWorkspaceNames (m : Manager) : List Name := (m.engines.map (·.1)).insertionSort (· ≤ ·)

/-- `DirectorySnapshot`. -/
structure DirectorySnapshot where
  entries : List DirEntry
  firstReadPending : Bool := true
  deriving DecidableEq, Repr

/-- `S_IFDIR`. -/
def kDirectoryMode : Nat := 16384

/-- The name `.`. -/
def dotName : Name := [46]

/-- The name `..`. -/
def dotDotName : Name := [46, 46]

/-- `resolve_view_path_inode`. -/
def resolveViewPathInode (m : Manager) : ViewPath → Prog Call Errno UInt64
  | .root => .ret kProjectViewRootInode
  | .inside workspace relative =>
    match m.findActiveWorkspaceEngine workspace with
    | none => .ret kProjectViewRootInode
    | some e => Prog.bind (getattr relative.text e) (fun r =>
      .ret (match r.1 with
        | .ok attr => attr.ino
        | .error _ => kProjectViewRootInode))

/-- `parent_view_path_inode`. -/
def parentViewPathInode (m : Manager) : ViewPath → Prog Call Errno UInt64
  | .root => .ret kProjectViewRootInode
  | .inside _ [] => .ret kProjectViewRootInode
  | .inside workspace relative => resolveViewPathInode m (.inside workspace (parentOf relative))

/-- The entries of the view's root: a directory for each active Workspace. -/
def workspaceEntries (m : Manager) : List Name → Prog Call Errno (List DirEntry)
  | [] => .ret []
  | name :: names =>
    (resolveViewPathInode m (.inside name [])).bind (fun ino =>
      (workspaceEntries m names).bind (fun entries => .ret (⟨name, ino, kDirectoryMode⟩ :: entries)))

/-- The entries of a snapshot after `.` and `..`; an engine that lists a directory keeps the listing. -/
def viewEntries (m : Manager) : ViewPath → Prog Call Errno (Except Errno (List DirEntry) × Manager)
  | .root => (workspaceEntries m m.activeWorkspaceNames).bind (fun entries => .ret (.ok entries, m))
  | .inside workspace relative =>
    match m.findActiveWorkspaceEngine workspace with
    | none => .ret (.error .ENOENT, m)
    | some e => Prog.bind (readdir relative.text e) (fun r => .ret (r.1, m.putEngine workspace r.2))

/-- `build_directory_snapshot`. -/
def buildDirectorySnapshot (path : Bytes) (m : Manager) : Prog Call Errno (Except Errno DirectorySnapshot × Manager) :=
  (resolveViewPathInode m (parseProjectViewPath path)).bind (fun self =>
    (parentViewPathInode m (parseProjectViewPath path)).bind (fun parent =>
      (viewEntries m (parseProjectViewPath path)).bind (fun r =>
        .ret (r.1.map (fun entries =>
          { entries := ⟨dotName, self, kDirectoryMode⟩ :: ⟨dotDotName, parent, kDirectoryMode⟩ :: entries }), r.2))))

/-- `tri_opendir`: the snapshot the handle holds. -/
def triOpendir (path : Bytes) (m : Manager) : Prog Call Errno (Except Errno DirectorySnapshot × Manager) :=
  buildDirectorySnapshot path m

/-- What `fuse_fill_dir_t` is given of an entry. -/
structure FilledEntry where
  entry : DirEntry
  nextOffset : Nat
  deriving DecidableEq, Repr

/-- `fuse_fill_dir_t`: whether an entry still goes into the buffer. -/
abbrev Filler : Type := List FilledEntry → FilledEntry → Bool

/-- The loop of `tri_readdir`: the entries from an index on, until the filler refuses one. -/
def fillEntries (filler : Filler) : List DirEntry → Nat → List FilledEntry → List FilledEntry
  | [], _, buffer => buffer
  | entry :: entries, index, buffer =>
    if filler buffer ⟨entry, index + 1⟩ then fillEntries filler entries (index + 1) (buffer ++ [⟨entry, index + 1⟩])
    else buffer

/-- The snapshot a read is answered from: offset zero after the first read takes a new one. -/
def snapshotForRead (path : Bytes) (offset : Int) (snapshot : DirectorySnapshot) (m : Manager) :
    Prog Call Errno (Except Errno DirectorySnapshot × Manager) :=
  if offset = 0 ∧ snapshot.firstReadPending = false then buildDirectorySnapshot path m else .ret (.ok snapshot, m)

/-- `tri_readdir`: what the buffer receives, and what `fh` denotes afterwards. -/
def triReaddir (path : Bytes) (filler : Filler) (offset : Int) (fh : Option DirectorySnapshot) (m : Manager) :
    Prog Call Errno (Except Errno (List FilledEntry) × Option DirectorySnapshot × Manager) :=
  match fh with
  | none => .ret (.error .EBADF, none, m)
  | some snapshot =>
    if offset < 0 then .ret (.error .EINVAL, some snapshot, m)
    else (snapshotForRead path offset snapshot m).bind (fun r =>
      .ret (match r.1 with
        | .error x => (.error x, some snapshot, r.2)
        | .ok current =>
          (.ok (fillEntries filler (current.entries.drop offset.toNat) offset.toNat []),
            some { current with firstReadPending := false }, r.2)))

end TribiosVfs

import TribiosVfs.FuseAdapter
import TribiosVfs.GitIndex

/-!
# Seeded indexes (core/workspace_git_index.cpp)

`translate_verified_entries`, from the bytes of the index it reads to the bytes of the one it publishes. The staging of the new file
is left out, and so are the Git commands before it.
-/

namespace TribiosVfs

/-- What a `struct stat` of the host holds besides a node's own attributes. -/
structure FineStat where
  ctimeNanoseconds : Nat := 0
  mtimeNanoseconds : Nat := 0
  uid : Nat := 0
  gid : Nat := 0
  deriving DecidableEq, Repr

/-- `is_seedable_mode`: a regular file or a symlink. -/
def isSeedableMode (mode : UInt32) : Bool := (mode &&& 0xF000) = 0x8000 || (mode &&& 0xF000) = 0xA000

/-- `base_dir / path`: an absolute path takes the place of the directory. -/
def basePathOf (baseDir : HostPath) (path : Bytes) : HostPath :=
  if path.head? = some slash then splitSlash path else baseDir ++ splitSlash path

/-- What the Base-state index records of a file that Git verified. -/
def baseStat (st : Node) (fine : FineStat) : GitIndexStat where
  ctimeSeconds := UInt32.ofInt st.attrs.ctime
  ctimeNanoseconds := UInt32.ofNat fine.ctimeNanoseconds
  mtimeSeconds := UInt32.ofInt st.attrs.mtime
  mtimeNanoseconds := UInt32.ofNat fine.mtimeNanoseconds
  inode := UInt32.ofNat st.attrs.ino
  uid := UInt32.ofNat fine.uid
  gid := UInt32.ofNat fine.gid
  size := UInt32.ofNat st.size

/-- What a seeded index is made from: the host with its Base tree, and the Workspace. -/
structure IndexSeed where
  host : Host
  fine : Node → FineStat
  baseDir : HostPath
  inodeSalt : UInt64
  device : UInt32
  daemon : Credentials

/-- The stat data the Workspace reports for a Base file. -/
def IndexSeed.workspaceStat (seed : IndexSeed) (st : Node) : GitIndexStat where
  ctimeSeconds := UInt32.ofInt st.attrs.ctime
  mtimeSeconds := UInt32.ofInt st.attrs.mtime
  device := seed.device
  inode := (saltedWorkspaceInode seed.inodeSalt (UInt64.ofNat st.attrs.ino)).toUInt32
  uid := UInt32.ofNat seed.daemon.uid
  gid := UInt32.ofNat seed.daemon.gid
  size := UInt32.ofNat st.size

/-- The recorded stat data is the Base file's own. The device does not decide. -/
def IndexSeed.matches (seed : IndexSeed) (recorded : GitIndexStat) (st : Node) : Bool :=
  { recorded with device := 0 } = baseStat st (seed.fine st)

/-- The new stat data of an entry: empty unless it is verified. -/
def IndexSeed.translated (seed : IndexSeed) (recorded : GitIndexStat) (path : Bytes) : GitIndexStat :=
  match (seed.host.lstat (basePathOf seed.baseDir path)).1 with
  | .ok st => if seed.matches recorded st then seed.workspaceStat st else {}
  | .error _ => {}

/-- One round of the loop. -/
def IndexSeed.translateEntry (seed : IndexSeed) (index : GitIndexFile) (entry : GitIndexEntry) : GitIndexFile :=
  if isSeedableMode entry.mode then
    writeGitIndexStat index entry (seed.translated (readGitIndexStat index entry) entry.path)
  else index

/-- `translate_verified_entries`. -/
def IndexSeed.translateVerifiedEntries (seed : IndexSeed) (bytes : Bytes) : Except GitIndexError Bytes := do
  let index ← parseGitIndex bytes
  return (sealGitIndex (index.entries.foldl seed.translateEntry index)).bytes

end TribiosVfs

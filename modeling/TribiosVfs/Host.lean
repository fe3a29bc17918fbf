import TribiosVfs.Paths

/-!
# The host file system

The file system the engine stores everything in, as far as the engine's system calls can tell: a rooted map from absolute
paths to nodes, and the kernel's path walk over it. The walk follows every symlink in the middle of a path, and one at its end
when the call asks for it; `..` climbs from the directory the walk stands in, as a symlink's target can.

Each call is a function of the host it meets; a call that fails leaves the host as it was. What a call changes of a
directory it adds to or removes from is that directory's modification time.
-/

namespace TribiosVfs

/-- The error codes the engine names, and any other. -/
inductive Errno where
  | ENOENT | ENOTDIR | EEXIST | EISDIR | EINVAL | ENOTEMPTY | EBUSY | EIO | ELOOP | EBADF | EFBIG | ENAMETOOLONG | ENOSPC
  | code (n : Nat)
  deriving DecidableEq, Repr

/-- An absolute path, segment by segment; the empty list is the root directory. -/
abbrev HostPath := List Name

/-- The part of a `struct stat` that changes without the entry's contents changing. -/
structure Attributes where
  ino : Nat
  perm : Nat
  atime : Int
  mtime : Int
  ctime : Int
  deriving DecidableEq, Repr

/-- What an entry is: a regular file with its bytes, a directory, or a symlink with its target. -/
inductive Contents where
  | file (data : Bytes)
  | dir
  | symlink (target : Bytes)
  deriving DecidableEq, Repr

structure Node where
  contents : Contents
  attrs : Attributes
  deriving DecidableEq, Repr

/-- `S_ISDIR`. -/
def Node.isDir (n : Node) : Bool := match n.contents with | .dir => true | _ => false
/-- `S_ISREG`. -/
def Node.isReg (n : Node) : Bool := match n.contents with | .file _ => true | _ => false
/-- `S_ISLNK`. -/
def Node.isLnk (n : Node) : Bool := match n.contents with | .symlink _ => true | _ => false

/-- A node whose directory entry list or data changed at a time. -/
def Node.touched (now : Int) (n : Node) : Node := { n with attrs := { n.attrs with mtime := now, ctime := now } }

abbrev Tree := PathMap Name Node

structure Host where
  tree : Tree
  nextIno : Nat
  now : Int
  umask : Nat

/-- The root directory. -/
def rootNode : Node := ⟨.dir, ⟨2, 493, 0, 0, 0⟩⟩

/-- `mode & 07777`. -/
def permBits (mode : Nat) : Nat := mode % 4096

/-- The permission bits a new file gets: the mode asked for less the umask. -/
def Host.maskPerm (h : Host) (mode : Nat) : Nat := permBits mode &&& (4095 ^^^ permBits h.umask)

/-- `S_ISGID`. -/
def setGroupId : Nat := 1024

/-- Sizes and offsets from here on are negative as an `off_t`. -/
def offTLimit : Nat := 9223372036854775808

/-! ## The path walk -/

def nodeAt (t : Tree) (p : HostPath) : Option Node := if p = [] then some rootNode else t.get p

def isDirAt (t : Tree) (p : HostPath) : Bool := match nodeAt t p with | some n => n.isDir | none => false

/-- The set-group-ID bit of a directory, which the directories made in it inherit. -/
def groupBit (t : Tree) (p : HostPath) : Nat := match nodeAt t p with
  | some n => n.attrs.perm &&& setGroupId
  | none => 0

/-- The permission bits of a directory made in another: of the mode asked for, `mkdir` takes `01777` less the umask, and the
set-group-ID bit comes from the directory it is made in. -/
def Host.directoryPerm (h : Host) (parent : HostPath) (mode : Nat) : Nat :=
  (h.maskPerm mode &&& 1023) ||| groupBit h.tree parent

/-- Where a walk ends, or the symlink it has to go on from. -/
inductive Advance where
  | done (r : Except Errno HostPath)
  | jump (dir : HostPath) (todo : List Name)

/-- The segments of a symlink's target, and the directory they start from. -/
def targetStart (dir : HostPath) (target : Bytes) : HostPath := if target.head? = some slash then [] else dir

/-- Walk from a directory until the path ends or a symlink has to be followed. -/
def advance (t : Tree) (follow : Bool) : HostPath → List Name → Advance
  | dir, [] => .done (.ok dir)
  | dir, c :: rest =>
    if !isDirAt t dir then .done (.error .ENOTDIR)
    else if c = [] ∨ c = dot then advance t follow dir rest
    else if c = dotdot then advance t follow dir.dropLast rest
    else match t.get (dir ++ [c]) with
      | none => if rest = [] then .done (.ok (dir ++ [c])) else .done (.error .ENOENT)
      | some n => match n.contents with
        | .symlink target =>
          if rest = [] ∧ follow = false then .done (.ok (dir ++ [c]))
          else .jump (targetStart dir target) (splitSlash target ++ rest)
        | _ => advance t follow (dir ++ [c]) rest

/-- The walk, following at most as many symlinks as it is given. -/
def walk (t : Tree) (follow : Bool) : Nat → HostPath → List Name → Except Errno HostPath
  | 0, _, _ => .error .ELOOP
  | links + 1, dir, todo => match advance t follow dir todo with
    | .done r => r
    | .jump dir' todo' => walk t follow links dir' todo'

/-- The kernel gives up after this many symlinks. -/
def maxLinks : Nat := 40

/-- The entry a path leads to; the last segment may be missing. -/
def Host.resolve (h : Host) (follow : Bool) (p : HostPath) : Except Errno HostPath :=
  walk h.tree follow (maxLinks + 1) [] (cPath p)

/-! ## Changes of one entry -/

/-- A directory's entry list changed. -/
def Host.touch (h : Host) (p : HostPath) : Host := { h with tree := h.tree.modify p (·.touched h.now) }

/-- Change a node in place. -/
def Host.alter (h : Host) (p : HostPath) (f : Node → Node) : Host := { h with tree := h.tree.modify p f }

/-- A new entry, with a new inode. -/
def Host.addEntry (h : Host) (p : HostPath) (contents : Contents) (perm : Nat) : Host :=
  Host.touch { h with tree := h.tree.set p ⟨contents, ⟨h.nextIno, perm, h.now, h.now, h.now⟩⟩, nextIno := h.nextIno + 1 }
    p.dropLast

def Host.dropEntry (h : Host) (p : HostPath) : Host := Host.touch { h with tree := h.tree.erase p } p.dropLast

def Host.moveEntry (h : Host) (src dst : HostPath) : Host :=
  (Host.touch { h with tree := h.tree.move src dst } src.dropLast).touch dst.dropLast

/-- The path ends in `.` or `..`, which `rename`, `rmdir` and `unlink` refuse. -/
def endsInDots (p : HostPath) : Bool := (cPath p).getLast? = some dot ∨ (cPath p).getLast? = some dotdot

/-- Run a call at the entry its path leads to. -/
def Host.at {α : Type} (h : Host) (follow : Bool) (p : HostPath) (f : HostPath → Except Errno α × Host) :
    Except Errno α × Host :=
  match h.resolve follow p with
  | .error e => (.error e, h)
  | .ok q => f q

/-- Run a call at the existing entry its path leads to. -/
def Host.atNode {α : Type} (h : Host) (follow : Bool) (p : HostPath) (f : HostPath → Node → Except Errno α × Host) :
    Except Errno α × Host :=
  h.at follow p (fun q => match nodeAt h.tree q with
    | none => (.error .ENOENT, h)
    | some n => f q n)

/-- Run a call that makes a new entry where its path leads. -/
def Host.atMissing {α : Type} (h : Host) (p : HostPath) (f : HostPath → Except Errno α × Host) : Except Errno α × Host :=
  h.at false p (fun q => match nodeAt h.tree q with
    | some _ => (.error .EEXIST, h)
    | none => f q)

/-! ## The system calls -/

/-- `lstat`. -/
def Host.lstat (h : Host) (p : HostPath) : Except Errno Node × Host := h.atNode false p (fun _ n => (.ok n, h))

/-- `stat`. -/
def Host.stat (h : Host) (p : HostPath) : Except Errno Node × Host := h.atNode true p (fun _ n => (.ok n, h))

/-- `opendir` and `readdir` to the end, without `.` and `..`. -/
def Host.openDirectory (h : Host) (p : HostPath) : Except Errno (List (Name × Node)) × Host :=
  h.atNode true p (fun q n =>
    if n.isDir then (.ok ((h.tree.names q).filterMap (fun c => (h.tree.get (q ++ [c])).map (c, ·))), h)
    else (.error .ENOTDIR, h))

/-- `std::filesystem::read_symlink`. -/
def Host.readSymlink (h : Host) (p : HostPath) : Except Errno Bytes × Host :=
  h.atNode false p (fun _ n => match n.contents with
    | .symlink target => (.ok target, h)
    | _ => (.error .EINVAL, h))

def Host.mkdir (h : Host) (p : HostPath) (mode : Nat) : Except Errno Unit × Host :=
  h.atMissing p (fun q => (.ok (), h.addEntry q .dir (h.directoryPerm q.dropLast mode)))

/-- `open` with `O_CREAT | O_EXCL | O_WRONLY`, and `close`. -/
def Host.createFile (h : Host) (p : HostPath) (mode : Nat) : Except Errno Unit × Host :=
  h.atMissing p (fun q => (.ok (), h.addEntry q (.file []) (h.maskPerm mode)))

def Host.symlink (h : Host) (target : Bytes) (p : HostPath) : Except Errno Unit × Host :=
  if cStr target = [] then (.error .ENOENT, h)
  else h.atMissing p (fun q => (.ok (), h.addEntry q (.symlink (cStr target)) 511))

/-- `std::filesystem::copy_file` onto a new file: it copies the bytes and the permission bits of a regular file. -/
def Host.copyFile (h : Host) (src dst : HostPath) : Except Errno Unit × Host :=
  h.atNode true src (fun _ n => match n.contents with
    | .file data => h.atMissing dst (fun q => (.ok (), h.addEntry q (.file data) n.attrs.perm))
    | _ => (.error .EINVAL, h))

def Host.chmod (h : Host) (p : HostPath) (mode : Nat) : Except Errno Unit × Host :=
  h.atNode true p (fun q _ =>
    (.ok (), h.alter q (fun n => { n with attrs := { n.attrs with perm := permBits mode, ctime := h.now } })))

/-- `utimes`, with whole seconds. -/
def Host.utimes (h : Host) (p : HostPath) (atime mtime : Int) : Except Errno Unit × Host :=
  h.atNode true p (fun q _ =>
    (.ok (), h.alter q (fun n => { n with attrs := { n.attrs with atime := atime, mtime := mtime, ctime := h.now } })))

/-- The first bytes of a file, with zeros where it was shorter. -/
def resizeBytes (data : Bytes) (size : Nat) : Bytes := data.take size ++ List.replicate (size - data.length) 0

/-- A file's bytes with others written over them at an offset; a gap reads as zeros. -/
def spliceBytes (old data : Bytes) (offset : Nat) : Bytes :=
  if data = [] then old
  else resizeBytes old offset ++ data ++ old.drop (offset + data.length)

/-- Change the bytes of the regular file a path leads to. -/
def Host.rewrite {α : Type} (h : Host) (p : HostPath) (a : α) (f : Bytes → Bytes) : Except Errno α × Host :=
  h.atNode true p (fun q n => match n.contents with
    | .file data => (.ok a, h.alter q (fun n => ({ n with contents := .file (f data) } : Node).touched h.now))
    | .dir => (.error .EISDIR, h)
    | .symlink _ => (.error .ELOOP, h))

/-- `open` with `O_WRONLY`, `O_CREAT` and `O_TRUNC`, and a write of all the bytes. -/
def Host.replaceFile (h : Host) (p : HostPath) (data : Bytes) : Except Errno Unit × Host :=
  h.at true p (fun q => match nodeAt h.tree q with
    | none => (.ok (), h.addEntry q (.file data) (h.maskPerm 420))
    | some n => match n.contents with
      | .file _ => (.ok (), h.alter q (fun n => ({ n with contents := .file data } : Node).touched h.now))
      | .dir => (.error .EISDIR, h)
      | .symlink _ => (.error .ELOOP, h))

def Host.truncate (h : Host) (p : HostPath) (size : Nat) : Except Errno Unit × Host :=
  if offTLimit ≤ size then (.error .EINVAL, h) else h.rewrite p () (fun data => resizeBytes data size)

/-- The bytes one call reads or writes at most, `MAX_RW_COUNT`. -/
def maxTransfer : Nat := 2147479552

/-- `open` with `O_WRONLY`, `pwrite` and `close`: the number of bytes written. -/
def Host.pwrite (h : Host) (p : HostPath) (data : Bytes) (offset : Nat) : Except Errno Nat × Host :=
  if offTLimit ≤ offset then (.error .EINVAL, h)
  else h.rewrite p (data.take maxTransfer).length (fun old => spliceBytes old (data.take maxTransfer) offset)

/-- `flags & O_ACCMODE`. -/
inductive AccessMode where
  | rdonly | wronly | rdwr
  deriving DecidableEq, Repr

/-- An open descriptor: the file it denotes, as it was opened, and the access it was opened with. -/
structure Descriptor where
  file : Node
  access : AccessMode
  deriving DecidableEq, Repr

/-- `open` of an existing file. -/
def Host.openFile (h : Host) (p : HostPath) (access : AccessMode) : Except Errno Descriptor × Host :=
  h.atNode true p (fun _ n => if n.isDir && access ≠ .rdonly then (.error .EISDIR, h) else (.ok ⟨n, access⟩, h))

/-- `pread`; `none` is the descriptor -1. -/
def Descriptor.pread (file : Option Descriptor) (size offset : Nat) : Except Errno Bytes :=
  if offTLimit ≤ offset then .error .EINVAL
  else match file with
    | none => .error .EBADF
    | some d =>
      if d.access = .wronly then .error .EBADF
      else if offTLimit ≤ size then .error .EINVAL
      else match d.file.contents with
        | .file data => .ok ((data.drop offset).take (min size maxTransfer))
        | .dir => .error .EISDIR
        | .symlink _ => .error .EINVAL

def Host.rename (h : Host) (src dst : HostPath) : Except Errno Unit × Host :=
  h.atNode false src (fun p n => h.at false dst (fun q =>
    if endsInDots src || endsInDots dst || p = [] || q = [] then (.error .EBUSY, h)
    else if p = q then (.ok (), h)
    else if p <+: q then (.error .EINVAL, h)
    else match nodeAt h.tree q with
      | none => (.ok (), h.moveEntry p q)
      | some m =>
        if n.isDir && !m.isDir then (.error .ENOTDIR, h)
        else if !n.isDir && m.isDir then (.error .EISDIR, h)
        else if h.tree.names q ≠ [] then (.error .ENOTEMPTY, h)
        else (.ok (), h.moveEntry p q)))

/-- `std::filesystem::remove`: `unlink` or `rmdir`, and no error where nothing is. -/
def Host.remove (h : Host) (p : HostPath) : Except Errno Unit × Host :=
  match h.resolve false p with
  | .error .ENOENT => (.ok (), h)
  | .error e => (.error e, h)
  | .ok q => match nodeAt h.tree q with
    | none => (.ok (), h)
    | some _ =>
      if endsInDots p || q = [] then (.error .EINVAL, h)
      else if h.tree.names q ≠ [] then (.error .ENOTEMPTY, h)
      else (.ok (), h.dropEntry q)

/-- The entries a recursive traversal of a path meets, an entry after all those beneath it; nothing where nothing is. -/
def Host.listTree (h : Host) (p : HostPath) : Except Errno (List (HostPath × Node)) × Host :=
  match h.resolve false p with
  | .error .ENOENT => (.ok [], h)
  | .error e => (.error e, h)
  | .ok q => (.ok ((h.tree.keysUnder q).filterMap (fun r => (h.tree.get r).map (r, ·))), h)

/-- One step of `std::filesystem::create_directories`: the directory is there, or it is made. -/
def Host.ensureDirectory (h : Host) (p : HostPath) : Except Errno Unit × Host :=
  match h.resolve true p with
  | .error e => (.error e, h)
  | .ok q => match nodeAt h.tree q with
    | some n => (if n.isDir then .ok () else .error .ENOTDIR, h)
    | none => (.ok (), h.addEntry q .dir (h.directoryPerm q.dropLast 511))

/-- Where the entry a path leads to is; `none` where nothing is. -/
def Host.canonical (h : Host) (p : HostPath) : Option HostPath :=
  match h.resolve true p with
  | .error _ => none
  | .ok q => if (nodeAt h.tree q).isSome then some q else none

/-- `std::filesystem::weakly_canonical`: the longest part of the path that leads somewhere, and the rest of it normalized. -/
def Host.weaklyCanonical (h : Host) (p : HostPath) : HostPath :=
  (p.inits.reverse.findSome? (fun part =>
    (h.canonical part).map (fun q => (p.drop part.length).foldl takeSegment q))).getD p

/-- `open` and `fsync` of a file; the data is there to be read whatever it returns. -/
def Host.fsyncFile (h : Host) (p : HostPath) : Except Errno Unit × Host := h.atNode true p (fun _ _ => (.ok (), h))

/-- `open` with `O_DIRECTORY` and `fsync`. -/
def Host.fsyncDirectory (h : Host) (p : HostPath) : Except Errno Unit × Host :=
  h.atNode true p (fun _ n => (if n.isDir then .ok () else .error .ENOTDIR, h))

end TribiosVfs

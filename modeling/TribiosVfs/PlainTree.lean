import TribiosVfs.Lib.Forest
import TribiosVfs.Operations

/-!
# An ordinary tree

What a Workspace is for: to its users it is one directory tree of their own, with files open on it. `Accepts`, `after` and `Tells`
say for each operation when such a tree takes it, what becomes of the tree, and what it answers; nothing here knows of layers,
tombstones or copies. A `Session` is a run of operations on the tree. It refuses what the tree does not take, and leaves one thing
open (`Refuses`): whether a file can be read through a handle opened for writing only.
-/

namespace TribiosVfs

/-- `S_IFMT`'s bits. -/
def Contents.fileType (c : Contents) : Nat := (⟨c, ⟨0, 0, 0, 0, 0⟩⟩ : Node).fileType

/-- A tree of directories, files and symlinks. -/
abbrev PlainTree := Forest Name Contents

namespace PlainTree

variable (t : PlainTree)

/-- No symlink stands in the way of a path. -/
def Clear (p : RelPath) : Prop := ∀ a, a <+: p → a ≠ p → ∀ target, t a ≠ some (.symlink target)

/-- Nothing is at the path, in a directory that is there. -/
def Room (p : RelPath) : Prop := p ≠ [] ∧ t p = none ∧ t (parentOf p) = some .dir

def IsFile (p : RelPath) : Prop := ∃ data, t p = some (.file data)

def NoLink (p : RelPath) : Prop := ∀ target, t p ≠ some (.symlink target)

/-- What is at a path may give way to an entry moved there: an empty directory to a directory, anything else to no directory. -/
def Fits (c : Contents) (p : RelPath) : Prop := ∀ c', t p = some c' → (c = .dir ↔ c' = .dir) ∧ (c' = .dir → ∀ n, t (p ++ [n]) = none)

/-- When the tree takes a rename. One of a path to itself is always taken. -/
def Renames (source target : RelPath) : Prop := source ≠ [] ∧ target ≠ [] ∧ (source = target ∨
  (¬source <+: target ∧ (∃ c, t source = some c ∧ t.Fits c target) ∧ t (parentOf target) = some .dir))

/-- The symlinks at and beneath a path have targets that a symlink can have. -/
def SoundLinks (p : RelPath) : Prop := ∀ s target, t (p ++ s) = some (.symlink target) → target ≠ [] ∧ cStr target = target

/-- The bytes of the file at a path; none where there is none. -/
def bytes (p : RelPath) : Bytes := match t p with
  | some (.file data) => data
  | _ => []

end PlainTree

/-- A file that is open: where it was opened and how, and the bytes it had when it was opened or last written to through the
handle. -/
structure OpenFile where
  path : RelPath
  access : AccessMode
  bytes : Bytes

/-- A tree, and the files open on it. -/
structure Desk where
  tree : PlainTree
  files : List (Int × OpenFile)

namespace Desk

variable (s : Desk)

def file (fd : Int) : Option OpenFile := (s.files.find? (fun entry => entry.1 = fd)).map (·.2)

def put (p : RelPath) (c : Option Contents) : Desk := { s with tree := s.tree.put p c }

/-- What a write leaves of the file at a path; it takes no more bytes than one call does. -/
def written (p : RelPath) (data : Bytes) (offset : Nat) : Bytes := spliceBytes (s.tree.bytes p) (data.take maxTransfer) offset

/-- When the tree takes an operation. -/
def Accepts : EngineOp → Prop
  | .getattr path => (s.tree (normalizeRelative path)).isSome = true
  | .readdir path => s.tree (normalizeRelative path) = some .dir
  | .readlink path => ∃ target, s.tree (normalizeRelative path) = some (.symlink target)
  | .readFile path _ _ => s.tree.IsFile (normalizeRelative path)
  | .writeFile path _ _ => s.tree.IsFile (normalizeRelative path) ∨ s.tree.Room (normalizeRelative path)
  | .openHandle path flags => (s.tree.IsFile (normalizeRelative path) ∧ ¬(flags.creat = true ∧ flags.excl = true)) ∨
      (flags.creat = true ∧ s.tree.Room (normalizeRelative path))
  | .readHandle fd _ _ => (s.file fd).isSome = true
  | .writeHandle fd _ _ => ∃ f, s.file fd = some f ∧ f.access ≠ .rdonly ∧ s.tree.IsFile f.path
  | .closeHandle _ => True
  | .create path _ | .mkdir path _ => s.tree.Room (normalizeRelative path)
  | .symlink target path => cStr target ≠ [] ∧ s.tree.Room (normalizeRelative path)
  | .unlink path => ∃ c, s.tree (normalizeRelative path) = some c ∧ c ≠ .dir
  | .rmdir path => normalizeRelative path ≠ [] ∧ s.tree (normalizeRelative path) = some .dir ∧
      ∀ c, s.tree (normalizeRelative path ++ [c]) = none
  | .truncate path _ | .chmod path _ | .utimens path _ _ => s.tree.IsFile (normalizeRelative path)
  | .rename fromPath toPath => s.tree.Renames (normalizeRelative fromPath) (normalizeRelative toPath)
  | .fsyncHandle fd _ => (s.file fd).isSome = true
  | .fsyncPath path _ directory => ∃ c, s.tree (normalizeRelative path) = some c ∧ (directory = true ↔ c = .dir)

/-- A read through a handle opened for writing only. -/
def ReadsUnasked : EngineOp → Prop
  | .readHandle fd _ _ => ∃ f, s.file fd = some f ∧ f.access = .wronly
  | _ => False

/-- When the tree may refuse an operation: when it does not take it, or when it is a read through a handle opened for writing only.
Such a read is refused with `EBADF` once the descriptor behind the handle is opened for writing, and answered before. -/
def Refuses (op : EngineOp) : Prop := ¬s.Accepts op ∨ s.ReadsUnasked op

/-- What becomes of the tree. -/
def after : EngineOp → Reply → Desk
  | .writeFile path data offset, _ =>
    s.put (normalizeRelative path) (some (.file (s.written (normalizeRelative path) data offset)))
  | .openHandle path flags, .handle fd =>
    let bytes := if flags.trunc then [] else s.tree.bytes (normalizeRelative path)
    { tree := s.tree.put (normalizeRelative path) (some (.file bytes))
      files := s.files ++ [(fd, ⟨normalizeRelative path, flags.access, bytes⟩)] }
  | .writeHandle fd data offset, _ => match s.file fd with
    | none => s
    | some f =>
      { tree := s.tree.put f.path (some (.file (s.written f.path data offset)))
        files := s.files.map (fun entry =>
          if entry.1 = fd then (entry.1, { entry.2 with bytes := s.written f.path data offset }) else entry) }
  | .closeHandle fd, _ => { s with files := s.files.filter (fun entry => entry.1 ≠ fd) }
  | .create path _, _ => s.put (normalizeRelative path) (some (.file []))
  | .mkdir path _, _ => s.put (normalizeRelative path) (some .dir)
  | .symlink target path, _ => s.put (normalizeRelative path) (some (.symlink (cStr target)))
  | .unlink path, _ | .rmdir path, _ => s.put (normalizeRelative path) none
  | .rename fromPath toPath, _ => { s with tree := s.tree.move (normalizeRelative fromPath) (normalizeRelative toPath) }
  | .truncate path size, _ =>
    s.put (normalizeRelative path) (some (.file (resizeBytes (s.tree.bytes (normalizeRelative path)) size)))
  | _, _ => s

/-- What the tree answers. -/
def Tells : EngineOp → Reply → Prop
  | .getattr path, .attr attr => ∃ st ino fromUpper, s.tree (normalizeRelative path) = some st.contents ∧
      attr = attrFromStat st ino fromUpper
  | .readdir path, .entries entries => entries.Pairwise (fun a b => a.name < b.name) ∧
      ∀ c, (entries.find? (fun x => x.name = c)).map (·.mode) = (s.tree (normalizeRelative path ++ [c])).map Contents.fileType
  | .readlink path, .data target => s.tree (normalizeRelative path) = some (.symlink target)
  | .readFile path size offset, .data data => data = ((s.tree.bytes (normalizeRelative path)).drop offset).take (min size maxTransfer)
  | .writeFile _ data _, .size size => size = (data.take maxTransfer).length
  | .openHandle _ _, .handle fd => ∀ entry ∈ s.files, entry.1 ≠ fd
  | .readHandle fd size offset, .data data => ∃ f, s.file fd = some f ∧ data = (f.bytes.drop offset).take (min size maxTransfer)
  | .writeHandle _ data _, .size size => size = (data.take maxTransfer).length
  | .closeHandle _, .done | .create _ _, .done | .mkdir _ _, .done | .symlink _ _, .done | .unlink _, .done | .rmdir _, .done
  | .rename _ _, .done | .truncate _ _, .done | .chmod _ _, .done | .utimens _ _ _, .done | .fsyncHandle _ _, .done
  | .fsyncPath _ _ _, .done => True
  | _, _ => False

/-- The operations a user may ask for: the paths have no NUL bytes and no symlink in the way, where a file is meant there is no
symlink or other directory, sizes and offsets are ones the host takes, and what is renamed has no symlink that cannot be made. -/
def Admits (op : EngineOp) : Prop :=
  (∀ path ∈ op.paths, (0 : UInt8) ∉ path ∧ s.tree.Clear (normalizeRelative path)) ∧
  match op with
  | .getattr _ | .readdir _ | .readlink _ | .closeHandle _ | .create _ _ | .mkdir _ _ | .symlink _ _ | .unlink _ | .rmdir _ => True
  | .readFile path size offset => s.tree.NoLink (normalizeRelative path) ∧ offset < offTLimit ∧ size < offTLimit
  | .writeFile path _ offset => s.tree.NoLink (normalizeRelative path) ∧ offset < offTLimit
  | .openHandle path _ => s.tree.NoLink (normalizeRelative path)
  | .readHandle _ size offset => offset < offTLimit ∧ size < offTLimit
  | .writeHandle fd _ offset => offset < offTLimit ∧
      ∀ f, s.file fd = some f → s.tree.Clear f.path ∧ s.tree.NoLink f.path ∧ s.tree f.path ≠ some .dir
  | .truncate path size => s.tree.NoLink (normalizeRelative path) ∧ size < offTLimit
  | .chmod path _ | .utimens path _ _ => s.tree.NoLink (normalizeRelative path) ∧ s.tree (normalizeRelative path) ≠ some .dir
  | .rename fromPath _ => s.tree.SoundLinks (normalizeRelative fromPath)
  | .fsyncHandle fd _ => ∀ f, s.file fd = some f → s.tree.Clear f.path
  | .fsyncPath path _ _ => s.tree.NoLink (normalizeRelative path)

/-- A run of operations on a tree, with what each came to. -/
inductive Session (t₀ : PlainTree) : List (EngineOp × Except Errno Reply) → Desk → Prop where
  | start : Session t₀ [] ⟨t₀, []⟩
  | done {log s} (op : EngineOp) (reply : Reply) : Session t₀ log s → s.Accepts op → s.Tells op reply →
      Session t₀ (log ++ [(op, .ok reply)]) (s.after op reply)
  | failed {log s} (op : EngineOp) (x : Errno) : Session t₀ log s → s.Refuses op → Session t₀ (log ++ [(op, .error x)]) s

end Desk

end TribiosVfs

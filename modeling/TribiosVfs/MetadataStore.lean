import TribiosVfs.Host
import TribiosVfs.Lib.SqlText

/-!
# The metadata store (core/metadata_store.cpp)

The rows of the SQLite database that recovery depends on, and the statements the store runs over them. A statement that fails
changes no row. Outside a transaction each statement commits by itself; `finish_recovery_operation` opens one, and a `COMMIT`
that fails as busy leaves it open, so that later statements of the connection run inside it and a process stop undoes them.
-/

namespace TribiosVfs

open SqlText (chars likeMatch)

/-- The kinds of a journal record; `other` is a row no part of the engine writes. -/
inductive OperationKind where
  | create | mkdir | symlink | write | truncate | chmod | utimens | rename | unlink | rmdir
  | workspaceCreate | workspaceRemove
  | other (name : Bytes)
  deriving DecidableEq, Repr

inductive RecoveryPhase where
  | prepared | publishing
  deriving DecidableEq, Repr

/-- A journal record. The texts of its paths are kept split at their slashes. -/
structure RecoveryOperation where
  id : Nat := 0
  workspace : Name
  kind : OperationKind
  path : RelPath
  target : RelPath := []
  phase : RecoveryPhase := .prepared
  addPathTombstone : Bool := false
  dropTargetTombstones : Bool := false
  deriving DecidableEq, Repr

inductive WorkspaceState where
  | creating | active | removed | reclaimed
  deriving DecidableEq, Repr

structure WorkspaceRecord where
  name : Name
  branch : Name
  state : WorkspaceState := .active
  createdAt : Int := 0
  createUs : Int := 0
  removedAt : Int := 0
  logicalRemoveUs : Int := 0
  reclaimUs : Int := -1
  deriving DecidableEq, Repr

structure ProjectRecord where
  root : HostPath
  mountPoint : HostPath
  deriving DecidableEq, Repr

/-- The rows of the database. `nextId` is the `AUTOINCREMENT` counter of `recovery_operation`. -/
structure Tables where
  tombstones : List (Name × RelPath) := []
  operations : List RecoveryOperation := []
  nextId : Nat := 1
  workspaces : List WorkspaceRecord := []
  project : Option ProjectRecord := none
  deriving DecidableEq, Repr

/-- What is committed, and the rows an open transaction sees. -/
structure Store where
  committed : Tables
  openTx : Option Tables := none
  deriving DecidableEq, Repr

/-- The rows the connection reads. -/
def Store.visible (s : Store) : Tables := s.openTx.getD s.committed

/-- A statement that changes rows: in the open transaction, or committed at once. -/
def Store.update (s : Store) (f : Tables → Tables) : Store :=
  match s.openTx with
  | none => { s with committed := f s.committed }
  | some t => { s with openTx := some (f t) }

/-- The process stops: an open transaction is undone. -/
def Store.stop (s : Store) : Store := { s with openTx := none }

/-! ## Texts in SQL -/

/-- What `sqlite3_bind_text` with length -1 stores of a path: its text up to the first NUL byte. -/
def bindText (p : RelPath) : RelPath := RelPath.ofText (cStr p.text)

/-- The byte `\`. -/
def backslash : UInt8 := 92
/-- The byte `_`. -/
def underscore : UInt8 := 95

/-- `escape_like_wildcards`. -/
def escapeLikeWildcards (text : Bytes) : Bytes :=
  text.flatMap (fun c => if c = backslash ∨ c = percent ∨ c = underscore then [backslash, c] else [c])

/-- The predicate of both tombstone deletions: `path = ? OR path LIKE ? ESCAPE '\'`, with the path and its escaped text
followed by `/%`. The comparison for equality is of bytes; LIKE reads both texts as UTF-8. -/
def sqlAtOrUnder (target path : RelPath) : Bool :=
  path == bindText target ||
    likeMatch backslash.toUInt32 (chars (cStr (escapeLikeWildcards target.text ++ [slash, percent]))) (chars path.text)

/-! ## The statements -/

def Tables.insertTombstone (t : Tables) (workspace : Name) (path : RelPath) : Tables :=
  if (workspace, bindText path) ∈ t.tombstones then t
  else { t with tombstones := t.tombstones ++ [(workspace, bindText path)] }

/-- `DELETE FROM tombstone WHERE workspace = ? AND (path = ? OR path LIKE ? ESCAPE '\')`. -/
def Tables.removeTombstonesUnder (t : Tables) (workspace : Name) (path : RelPath) : Tables :=
  { t with tombstones := t.tombstones.filter (fun row => !(row.1 == workspace && sqlAtOrUnder path row.2)) }

def Tables.clearTombstones (t : Tables) (workspace : Name) : Tables :=
  { t with tombstones := t.tombstones.filter (fun row => row.1 != workspace) }

/-- `load_workspace_tombstones`. -/
def Tables.loadWorkspaceTombstones (t : Tables) (workspace : Name) : List RelPath :=
  (t.tombstones.filter (fun row => row.1 == workspace)).map (·.2)

/-- `begin_recovery_operation`: the new row's id is the statement's result. -/
def Tables.beginRecoveryOperation (t : Tables) (operation : RecoveryOperation) : Tables :=
  { t with
    operations := t.operations ++
      [{ operation with id := t.nextId, path := bindText operation.path, target := bindText operation.target }]
    nextId := t.nextId + 1 }

def Tables.setRecoveryOperationPhase (t : Tables) (id : Nat) (phase : RecoveryPhase) : Tables :=
  { t with operations := t.operations.map (fun o => if o.id = id then { o with phase := phase } else o) }

/-- `abandon_recovery_operation`: `DELETE FROM recovery_operation WHERE id = ?`. -/
def Tables.abandonRecoveryOperation (t : Tables) (id : Nat) : Tables :=
  { t with operations := t.operations.filter (fun o => o.id ≠ id) }

/-- `save_workspace_record`: `INSERT OR REPLACE`. The name is a valid one; the branch is stored up to its first NUL byte. -/
def Tables.saveWorkspaceRecord (t : Tables) (record : WorkspaceRecord) : Tables :=
  { t with workspaces := t.workspaces.filter (fun r => r.name ≠ record.name) ++ [{ record with branch := cStr record.branch }] }

def Tables.loadWorkspaceRecord (t : Tables) (name : Name) : Option WorkspaceRecord :=
  t.workspaces.find? (fun r => r.name = name)

/-- `load_all_workspace_records`: `ORDER BY created_at, name`. -/
def Tables.loadAllWorkspaceRecords (t : Tables) : List WorkspaceRecord :=
  t.workspaces.insertionSort (fun a b => a.createdAt < b.createdAt ∨ (a.createdAt = b.createdAt ∧ a.name ≤ b.name))

def Tables.setWorkspaceState (t : Tables) (name : Name) (state : WorkspaceState) : Tables :=
  { t with workspaces := t.workspaces.map (fun r => if r.name = name then { r with state := state } else r) }

def Tables.setWorkspaceReclamationDuration (t : Tables) (name : Name) (us : Int) : Tables :=
  { t with workspaces := t.workspaces.map (fun r => if r.name = name then { r with reclaimUs := us } else r) }

/-! ## finish_recovery_operation -/

/-- How a `COMMIT` fails. SQLite keeps the transaction of one that fails with `SQLITE_BUSY`, so that it can be tried again; at any
other failure (`SQLITE_IOERR`, `SQLITE_FULL`, `SQLITE_NOMEM`) it rolls the transaction back by itself. -/
inductive CommitFailure where
  | busy | rolledBack
  deriving DecidableEq, Repr

/-- Which statements of `finish_recovery_operation` fail. One whose failure rolls the transaction back by itself leaves what the
`ROLLBACK` after it would. -/
structure StatementFaults where
  begin_ : Bool := false
  insert : Bool := false
  drop : Bool := false
  delete : Bool := false
  commit : Option CommitFailure := none
  rollback : Bool := false
  deriving DecidableEq, Repr

/-- The tombstone insert, when the record asks for one. -/
def Tables.finishInsert (t : Tables) (operation : RecoveryOperation) : Tables :=
  if operation.addPathTombstone then t.insertTombstone operation.workspace operation.path else t

/-- The tombstone deletion, when the record asks for one. -/
def Tables.finishDrop (t : Tables) (operation : RecoveryOperation) : Tables :=
  if operation.dropTargetTombstones then t.removeTombstonesUnder operation.workspace operation.target else t

/-- What `finish_recovery_operation` commits. -/
def Tables.finishRecoveryOperation (t : Tables) (operation : RecoveryOperation) : Tables :=
  ((t.finishInsert operation).finishDrop operation).abandonRecoveryOperation operation.id

/-- A statement failed inside the transaction: `ROLLBACK`, whose own result nobody looks at. -/
def Store.rollback (s : Store) (fails : Bool) (t : Tables) : Store :=
  if fails then { s with openTx := some t } else { s with openTx := none }

/-- `finish_recovery_operation`, statement by statement. `BEGIN IMMEDIATE` fails inside an open transaction. -/
def Store.finishRecoveryOperation (s : Store) (f : StatementFaults) (operation : RecoveryOperation) : Bool × Store :=
  if f.begin_ || s.openTx.isSome then (false, s)
  else if operation.addPathTombstone && f.insert then (false, s.rollback f.rollback s.committed)
  else
    let inserted := s.committed.finishInsert operation
    if operation.dropTargetTombstones && f.drop then (false, s.rollback f.rollback inserted)
    else
      let dropped := inserted.finishDrop operation
      if f.delete then (false, s.rollback f.rollback dropped)
      else
        let deleted := dropped.abandonRecoveryOperation operation.id
        match f.commit with
        | some .busy => (false, { s with openTx := some deleted })
        | some .rolledBack => (false, { s with openTx := none })
        | none => (true, { committed := deleted, openTx := none })

/-- With no failing statement and no transaction open, the three changes are committed. -/
theorem Store.finish_ok {s : Store} (h : s.openTx = none) (operation : RecoveryOperation) :
    s.finishRecoveryOperation {} operation = (true, { s with committed := s.committed.finishRecoveryOperation operation }) := by
  simp [Store.finishRecoveryOperation, Tables.finishRecoveryOperation, h]

end TribiosVfs

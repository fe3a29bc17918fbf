import TribiosVfs.WorkspaceEngine
import TribiosVfs.Lemmas.Calls

/-!
# Computations that run alone

What a computation comes to when nothing hinders a call, a bind at a time.
-/

namespace TribiosVfs

/-- The entry `find_visible_entry_layer` finds. -/
def Engine.lookup (e : Engine) (h : Host) (relative : RelPath) : Option (Layer × Node) :=
  match (h.lstat (e.upperPath relative)).1.toOption with
  | some st => some (.upper, st)
  | none =>
    if baseIsVisible e.tombstones relative then ((h.lstat (e.basePath relative)).1.toOption).map (Layer.base, ·) else none

namespace Runs

variable {α β ε : Type} (w : World)

theorem run_pure (a : α) : (pure a : Fallible ε α).run exec w = (.ok a, w) := rfl

theorem run_bind (p : Fallible ε α) (f : α → Fallible ε β) :
    (p >>= f).run exec w = match p.run exec w with
      | (.ok a, w') => (f a).run exec w'
      | (.error x, w') => (.error x, w') := by
  refine (Prog.run_bind exec p _ w).trans ?_
  generalize p.run exec w = r
  obtain ⟨r, w'⟩ := r
  cases r <;> rfl

theorem run_forEach_cons (f : α → Fallible ε Unit) (a : α) (as : List α) :
    (Fallible.forEach f (a :: as)).run exec w = match (f a).run exec w with
      | (.ok (), w') => (Fallible.forEach f as).run exec w'
      | (.error x, w') => (.error x, w') := by
  refine (run_bind w (f a) (fun _ => Fallible.forEach f as)).trans ?_
  generalize (f a).run exec w = r
  obtain ⟨r, w'⟩ := r
  cases r <;> rfl

theorem run_ignore {ε' : Type} (p : Fallible ε α) : (p.ignore : Fallible ε' Unit).run exec w = (.ok (), (p.run exec w).2) :=
  Prog.run_bind exec p _ w

theorem run_attempt {ε' : Type} (p : Fallible ε α) :
    (p.attempt : Fallible ε' (Except ε α)).run exec w = (.ok (p.run exec w).1, (p.run exec w).2) :=
  Prog.run_bind exec p _ w

/-- A computation that succeeds needs no other answer. -/
theorem run_orElseDo_ok {ε' : Type} {p : Fallible ε α} {f : ε → Fallible ε' α} {a : α} {w w' : World}
    (h : p.run exec w = (.ok a, w')) : (p.orElseDo f).run exec w = (.ok a, w') := by
  refine (Prog.run_bind exec p _ w).trans ?_
  rw [h]
  rfl

theorem run_engine_bind (m : EngineM α) (f : α → EngineM β) (e : Engine) :
    ((m >>= f) e).run exec w = match (m e).run exec w with
      | ((.ok a, e'), w') => (f a e').run exec w'
      | ((.error x, e'), w') => ((.error x, e'), w') := by
  refine (Prog.run_bind exec (m e) _ w).trans ?_
  generalize (m e).run exec w = r
  obtain ⟨⟨r, e'⟩, w'⟩ := r
  cases r <;> rfl

theorem run_engine_reads (f : Engine → Io α) (e : Engine) :
    (EngineM.reads f e).run exec w = ((((f e).run exec w).1, e), ((f e).run exec w).2) := by
  exact Prog.run_bind exec (f e) _ w

theorem run_refuse (c : Prop) [Decidable c] (x : ε) :
    (Fallible.refuse c x).run exec w = (if c then .error x else .ok (), w) := by
  unfold Fallible.refuse
  split <;> rfl

theorem run_lstat (p : HostPath) : (lstatPath p : Fallible ε (Option Node)).run exec w = (.ok (w.host.lstat p).1.toOption, w) := by
  have hw : (exec (.lstat p) w).2 = w := exec_reads rfl w
  exact congrArg (fun w' => (Except.ok (w.host.lstat p).1.toOption, w')) hw

theorem run_call (c : Call α) (hc : c.reads = true) : (Io.call c).run exec w = ((exec c w).1, w) :=
  congrArg (fun w' => ((exec c w).1, w')) (exec_reads hc w)

theorem run_find (relative : RelPath) (e : Engine) :
    (findVisibleEntryLayer relative e).run exec w = (.ok (e.lookup w.host relative), w) := by
  rw [findVisibleEntryLayer, run_bind, run_lstat, Engine.lookup]
  cases (w.host.lstat (e.upperPath relative)).1.toOption with
  | some st => rfl
  | none =>
    dsimp only
    split
    · rw [run_bind, run_lstat]
      rfl
    · rfl

theorem run_getattr (w : World) (path : Bytes) (e : Engine) :
    (getattr path e).run exec w =
      (((match e.lookup w.host (normalizeRelative path) with
        | none => .error .ENOENT
        | some (layer, st) => .ok (attrFromStat st (e.workspaceInodeFor st) (layer = .upper))), e), w) := by
  rw [getattr, run_engine_reads, run_bind, run_find]
  cases e.lookup w.host (normalizeRelative path) <;> rfl

end Runs

end TribiosVfs

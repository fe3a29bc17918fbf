import TribiosVfs.Theorems.CopyOnWrite

/-!
# Workspaces keep apart

Any number of Workspaces over one host, their operations in any order: the users of each see a session of their own on the Base tree,
and nothing outside of the Workspaces' directories is ever changed.
-/

namespace TribiosVfs

open CopyOnWriteAux

variable {ι : Type}

/-- No Workspace's directory lies in another's, or in a Base tree, or has one in it. -/
structure Apart (es : ι → Engine) : Prop where
  workspaces : ∀ i j, i ≠ j → ¬(es i).workspaceDir <+: (es j).workspaceDir
  bases : ∀ i j, ¬(es i).workspaceDir <+: (es j).baseDir ∧ ¬(es j).baseDir <+: (es i).workspaceDir

variable [DecidableEq ι]

/-- The runs of several Workspaces' operations, in any order, with what each came to. -/
inductive ServedTogether (es₀ : ι → Engine) (w₀ : World) : List (ι × EngineOp × Except Errno Reply) → (ι → Engine) → World → Prop where
  | start : ServedTogether es₀ w₀ [] es₀ w₀
  | op {log es w} (i : ι) (op : EngineOp) (r : Except Errno Reply) (e' : Engine) (w' : World) : ServedTogether es₀ w₀ log es w →
      (es i).Allows w.host.tree op → (op.run (es i)).run exec w = ((r, e'), w') → e'.nextHandle ≤ kIntMax →
      ServedTogether es₀ w₀ (log ++ [(i, op, r)]) (Function.update es i e') w'

/-- The operations of one Workspace. -/
def operationsOf (i : ι) (log : List (ι × EngineOp × Except Errno Reply)) : List (EngineOp × Except Errno Reply) :=
  log.filterMap (fun x => if x.1 = i then some x.2 else none)

namespace IsolationAux

omit [DecidableEq ι] in
/-- What one Workspace does, the others do not see. -/
theorem elsewhere_of_kept {es : ι → Engine} (ha : Apart es) {i j : ι} (hij : j ≠ i) {w w' : World}
    (hk : Kept (es i) ((es i).workspaceDir <+: ·) w w') (hs : Ready (es i) w') : Elsewhere (es j) w w' where
  wf := hk.wf
  same q hq := by
    refine hk.outside (fun hi => ?_)
    rcases hq with hq | hq
    · rcases List.prefix_or_prefix_of_prefix hi hq with h | h
      · exact ha.workspaces i j (Ne.symm hij) h
      · exact ha.workspaces j i hij h
    · rcases List.prefix_or_prefix_of_prefix hi hq with h | h
      · exact (ha.bases i j).1 h
      · exact (ha.bases i j).2 h
  nextId := hk.nextId
  env := hs.quiet
  closed := hs.closed

theorem operationsOf_self (i : ι) (log : List (ι × EngineOp × Except Errno Reply)) (x : EngineOp × Except Errno Reply) :
    operationsOf i (log ++ [(i, x)]) = operationsOf i log ++ [x] := by
  simp [operationsOf]

theorem operationsOf_other {i j : ι} (hij : j ≠ i) (log : List (ι × EngineOp × Except Errno Reply))
    (x : EngineOp × Except Errno Reply) : operationsOf j (log ++ [(i, x)]) = operationsOf j log := by
  simp [operationsOf, Ne.symm hij]

/-- Each of several Workspaces runs as if it were alone, with the others elsewhere. -/
theorem served_each {es₀ es : ι → Engine} {w₀ w : World} {log : List (ι × EngineOp × Except Errno Reply)}
    (h₀ : ∀ i, (es₀ i).Fresh w₀) (ha : Apart es₀) (h : ServedTogether es₀ w₀ log es w) :
    (∀ i, Served (es₀ i) w₀ (operationsOf i log) (es i) w) ∧
      ∀ q, (∀ i, ¬(es₀ i).workspaceDir <+: q) → w.host.tree.get q = w₀.host.tree.get q := by
  induction h with
  | start => exact ⟨fun _ => .start, fun _ _ => rfl⟩
  | @op log es w i op r e' w' _ hadm hrun hbound ih =>
    obtain ⟨hserved, hout⟩ := ih
    have hin := fun j => served (h₀ j) (hserved j)
    obtain ⟨s', hnext, -⟩ := ran_becomes (hin i).serves hadm hrun
    have hdir : ∀ j, (es j).workspaceDir = (es₀ j).workspaceDir := fun j => congrArg parentPath (hin j).upperDir
    have hapart : Apart es :=
      ⟨fun j k hjk => by rw [hdir, hdir]; exact ha.workspaces j k hjk,
        fun j k => by rw [hdir, (hin k).baseDir]; exact ha.bases j k⟩
    have hready : Ready (es i) w' := hnext.serves.ready.of_dirs hnext.upperDir.symm hnext.baseDir.symm
    refine ⟨fun j => ?_, fun q hq => ?_⟩
    · by_cases hij : j = i
      · subst hij
        rw [operationsOf_self, Function.update_self]
        exact (hserved j).op op r e' w' hadm hrun hbound
      · rw [operationsOf_other hij, Function.update_of_ne hij]
        exact (hserved j).rest w' (elsewhere_of_kept hapart hij hnext.kept hready)
    · rw [hnext.kept.outside (by rw [hdir]; exact hq i), hout q hq]

end IsolationAux

open IsolationAux

namespace IsolationWitness

/-- Two Workspaces, at `/v` and `/w`, over a Base tree at `/b` with one file `a`. -/
def world : World where
  host := {
    tree := ⟨[([[118]], ⟨.dir, ⟨3, 493, 0, 0, 0⟩⟩), ([[118], [117]], ⟨.dir, ⟨4, 493, 0, 0, 0⟩⟩),
      ([[119]], ⟨.dir, ⟨5, 493, 0, 0, 0⟩⟩), ([[119], [117]], ⟨.dir, ⟨6, 493, 0, 0, 0⟩⟩), ([[98]], ⟨.dir, ⟨7, 493, 0, 0, 0⟩⟩),
      ([[98], [97]], ⟨.file [104], ⟨8, 420, 0, 0, 0⟩⟩)]⟩
    nextIno := 9, now := 5, umask := 18 }
  store := { committed := {} }

def engines (first : Bool) : Engine := .construct [if first then 118 else 119] [[98]] [[if first then 118 else 119], [117]] world.store

theorem home (i : Bool) : Home (engines i) world := by
  have hwf : world.host.tree.WF := Tree.wf_of_entries (by decide)
  have hrec : world.host.tree.get (engines i).recoveryDir = none := by cases i <;> decide
  have hplaced : (engines i).Placed := by cases i <;> exact ⟨by decide, by decide, by decide, by decide, by decide, by decide, by decide⟩
  refine ⟨hplaced, hwf, by cases i <;> decide, by cases i <;> decide, fun n hn => ?_, fun id _ => ?_⟩
  · rw [hrec] at hn
    cases hn
  · exact hwf.rooted.get_under_none Engine.Placed.recovery_ne hrec (Engine.Placed.recovery_stage id)

theorem fresh (i : Bool) : (engines i).Fresh world := by
  refine ⟨rfl, ⟨home i, rfl, rfl⟩, rfl, fun p hp => ?_⟩
  cases i <;> simp [engines, Engine.construct, Engine.upperPath, world, PathMap.get, PathMap.lookupIn, hp]

theorem apart : Apart engines :=
  ⟨fun i j hij => by cases i <;> cases j <;> first | exact absurd rfl hij | decide, fun i j => by cases i <;> cases j <;> decide⟩

/-- The first Workspace unlinks the file, and the second one then reads it. -/
def unlinked : (Except Errno Reply × Engine) × World := ((EngineOp.unlink [97]).run (engines true)).run exec world

def read : (Except Errno Reply × Engine) × World := ((EngineOp.readFile [97] 8 0).run (engines false)).run exec unlinked.2

theorem admits_unlink : ((engines true).desk world.host.tree).Admits (.unlink [97]) :=
  ⟨fun path hp => by
    rw [EngineOp.paths, List.mem_singleton] at hp
    rw [hp]
    exact ⟨by decide, CopyOnWriteWitness.clear (by decide)⟩, trivial⟩

theorem admits_read : ((engines false).desk unlinked.2.host.tree).Admits (.readFile [97] 8 0) := by
  have hfile : ((engines false).desk unlinked.2.host.tree).tree [[97]] = some (.file [104]) := by decide +kernel
  refine ⟨fun path hp => ?_, fun target ht => ?_, by decide⟩
  · rw [EngineOp.paths, List.mem_singleton] at hp
    rw [hp]
    exact ⟨by decide, CopyOnWriteWitness.clear (by decide +kernel)⟩
  · cases hfile.symm.trans ht

theorem servedTogether : ServedTogether engines world
    [(true, .unlink [97], .ok .done), (false, .readFile [97] 8 0, .ok (.data [104]))]
    (Function.update (Function.update engines true unlinked.1.2) false read.1.2) read.2 := by
  have hfirst : ServedTogether engines world [(true, .unlink [97], .ok .done)] (Function.update engines true unlinked.1.2) unlinked.2 :=
    .op true (.unlink [97]) _ _ _ .start ⟨admits_unlink, fun _ _ h => nomatch h⟩ (Prod.ext (Prod.ext (by decide +kernel) rfl) rfl) (by decide +kernel)
  have hsecond : Function.update engines true unlinked.1.2 false = engines false := Function.update_of_ne (by decide) _ _
  refine hfirst.op false (.readFile [97] 8 0) _ _ _ (by rw [hsecond]; exact ⟨admits_read, fun _ _ h => nomatch h⟩) ?_ (by decide +kernel)
  rw [hsecond]
  exact Prod.ext (Prod.ext (by decide +kernel) rfl) rfl

end IsolationWitness

end TribiosVfs

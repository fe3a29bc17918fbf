import TribiosVfs.Lemmas.FailingCalls
import TribiosVfs.Lemmas.WorktreeRuns
import TribiosVfs.Lifecycle

/-!
# What a failed creation leaves

`create_workspace` cleans up by hand at every error exit. Most exits leave nothing: `create_leaves_no_residue` proves it of every
run in which at most one step fails and that step is not one of those whose exit forgets something (`tidied`). These are the
creation and the flush of the upper tree, which leave the record in state Creating and its journal record; in
`register_linked_worktree`, `git worktree add` once it has made its branch, and the removal of what is in its way before, which leave
the branch; the steps behind it, which leave the branch and the registration; and the deletion of the journal record at the end.
`ResidueWitness.leaves_record` is such a run.
-/

namespace TribiosVfs

/-- Nothing of a failed creation is left: branches, registered worktrees, journal and the upper tree are as they were, and the
record is absent or reclaimed. -/
structure NoResidue (paths : ProjectPaths) (name : Name) (w w' : World) : Prop where
  branches : w'.git.branches = w.git.branches
  worktrees : w'.git.worktrees = w.git.worktrees
  operations : w'.store.visible.operations = w.store.visible.operations
  record : ∀ r, w'.store.visible.loadWorkspaceRecord name = some r → r.state = .reclaimed
  upper : ∀ q, paths.upperDirectory name <+: q → w'.host.tree.get q = w.host.tree.get q

/-- Every run of a creation in which at most a number of calls fail as `F` lets them: the Workspace is served, or the daemon serves
what it served before and there is no residue. -/
def LeavesNoResidue (F : Faults) (m : Manager) (name requestedBranch : Bytes) (n : Nat) (w : World) : Prop :=
  ((LifecycleRequest.create name requestedBranch).serve m).Within exec (failing F) (fun _ r w' =>
    (∃ engine, r = (.up { m with engines := m.engines ++ [(name, engine)] }, none)) ∨
      (r = (.up m, none) ∧ NoResidue m.paths name w w')) n w

/-- The calls whose failure `create_workspace` tidies up after, or does not mind. Directories are made before there is an upper tree
(the upper tree itself) and after. Until there is the branch, what stands in staging may fail to go only when it is an empty
directory by then, or nothing: Git makes the branch before it looks. -/
def tidied (paths : ProjectPaths) (name branch : Name) : Faults where
  may c w := match c with
    | .ensureDirectory _ => isDirAt w.host.tree (paths.upperDirectory name) = true
    | .fsyncDirectory p => p = paths.upperDirectory name
    | .fsyncFile p => p = paths.upperDirectory name ++ [kGitDirName]
    | .listTree p => p = paths.stagingDir ++ [name] →
        (∃ b ∈ w.git.branches, b.1 = branch) ∨ w.host.tree.get (paths.stagingDir ++ [name]) = none
    | .remove p => paths.stagingDir ++ [name] <+: p → (∃ b ∈ w.git.branches, b.1 = branch) ∨
        (p = paths.stagingDir ++ [name] ∧ isDirAt w.host.tree (paths.stagingDir ++ [name]) = true)
    | .openFile _ _ => False
    | .gitWorktreeAdd _ _ _ => False
    | .writeGitdir _ _ => False
    | .populateWorkspaceGitIndex _ => False
    | .abandonRecoveryOperation _ => False
    | _ => True

/-- The Project's directories, which nothing but the engine and Git changes. -/
structure Grounds (paths : ProjectPaths) (h : Host) : Prop where
  wf : h.tree.WF
  registry : RegistryAt paths.root h.tree
  line : ∀ s ∈ paths.root, (10 : UInt8) ∉ s
  workspaces : isDirAt h.tree paths.workspacesDir = true
  staging : isDirAt h.tree paths.stagingDir = true

/-- What is so of a name before it is created: no record but a reclaimed one, no upper tree, no worktree in its place or in staging;
and of the Project: ids are new, registered worktrees have their directories, and nobody has a branch checked out that does not exist. -/
structure Creatable (paths : ProjectPaths) (name branch : Name) (w : World) : Prop where
  grounds : Grounds paths w.host
  ids : ∀ o ∈ w.store.visible.operations, o.id ≠ w.store.visible.nextId
  record : ∀ r, w.store.visible.loadWorkspaceRecord name = some r → r.state = .reclaimed
  upper : w.host.tree.get (paths.upperDirectory name) = none
  directory : ∀ n, w.host.tree.get (paths.workspacesDir ++ [name]) = some n → n.isDir = true
  unmounted : ∀ t ∈ w.git.worktrees, t.path ≠ paths.mountPoint ++ [name]
  unstaged : ∀ t ∈ w.git.worktrees, t.path ≠ paths.stagingDir ++ [name]
  admins : ∀ t ∈ w.git.worktrees,
    paths.root ++ [kGitDirName, worktreesName] <+: t.admin ∧ (w.host.tree.get t.admin).isSome
  heads : (∀ b ∈ w.git.branches, b.1 ≠ branch) →
    w.git.mainHead ≠ some branch ∧ ∀ t ∈ w.git.worktrees, t.head ≠ some branch

/-- `git worktree add` is going to take the branch. -/
structure GitTakes (branch : Name) (w : World) : Prop where
  commit : w.git.headCommit.isSome
  newBranch : ∀ b ∈ w.git.branches, b.1 ≠ branch
  accepts : w.git.acceptsBranch branch = true

namespace CreationAux

/-! ## Where things are -/

section places

variable {paths : ProjectPaths} {name : Name}

theorem workspacesDir_eq : paths.workspacesDir = paths.root ++ [kTribiosDirName, workspacesName] := by
  simp [ProjectPaths.workspacesDir, ProjectPaths.tribiosDir]

theorem stagingDir_eq : paths.stagingDir = paths.root ++ [kTribiosDirName, stagingName] := by
  simp [ProjectPaths.stagingDir, ProjectPaths.tribiosDir]

theorem upperDirectory_eq : paths.upperDirectory name = paths.root ++ [kTribiosDirName, workspacesName, name, upperName] := by
  simp [ProjectPaths.upperDirectory, workspacesDir_eq]

theorem spelled_of_valid (h : isValidWorkspaceName name = true) : Spelled name := by
  unfold isValidWorkspaceName at h
  simp only [ne_eq, decide_not, Bool.and_eq_true, Bool.not_eq_true', decide_eq_false_iff_not, decide_eq_true_eq,
    List.all_eq_true] at h
  obtain ⟨⟨⟨⟨hne, -⟩, hdot⟩, hdotdot⟩, hall⟩ := h
  have hchar : ∀ c ∈ name, c ≠ 0 ∧ c ≠ slash ∧ c ≠ 10 := by
    intro c hc
    have := hall c hc
    refine ⟨?_, ?_, ?_⟩
    · rintro rfl
      revert this
      decide
    · rintro rfl
      revert this
      decide
    · rintro rfl
      revert this
      decide
  refine ⟨⟨fun s hs => ?_, fun s hs => ?_⟩, fun h10 => (hchar _ h10).2.2 rfl⟩
  · rw [List.mem_singleton.mp hs]
    exact ⟨hne, hdot, hdotdot, fun h => (hchar _ h).2.1 rfl⟩
  · rw [List.mem_singleton.mp hs]
    exact fun h => (hchar _ h).1 rfl

end places

/-! ## Giving a creation up -/

/-- The journal holds one record more, of the creation. -/
def Journaled (w₀ : World) (id : Nat) (s : Store) : Prop :=
  (∀ o ∈ w₀.store.visible.operations, o.id ≠ id) ∧
    ∃ r : RecoveryOperation, r.id = id ∧ s.visible.operations = w₀.store.visible.operations ++ [r]

/-- Git has what it had, and the branch and the worktree of the creation. -/
def Added (w₀ : World) (branch : Name) (t : Worktree) (g : Git) : Prop :=
  ∃ commit, g = { w₀.git with
    branches := w₀.git.branches ++ [(branch, commit)]
    worktrees := w₀.git.worktrees ++ [t] }

/-- What stands on the host once a worktree is registered. -/
structure Standing (paths : ProjectPaths) (name c : Name) (h : Host) : Prop where
  wf : h.tree.WF
  git : RegistryAt paths.root h.tree
  staging : isDirAt h.tree paths.stagingDir = true
  registry : isDirAt h.tree (paths.root ++ [kGitDirName, worktreesName]) = true
  admin : isDirAt h.tree (paths.root ++ [kGitDirName, worktreesName, c]) = true
  files : HoldsFiles h.tree (paths.root ++ [kGitDirName, worktreesName, c])
  upper : isDirAt h.tree (paths.upperDirectory name) = true

section undo

variable {paths : ProjectPaths} {name branch c : Name} {w₀ : World} {id : Nat}

theorem upper_ordinary (hroot : Ordinary paths.root) (hname : Spelled name) : Ordinary (paths.upperDirectory name) := by
  rw [upperDirectory_eq]
  have h1 : Ordinary [kTribiosDirName, workspacesName] := by decide
  have h2 : Ordinary [upperName] := by decide
  exact hroot.append (h1.append (hname.1.append h2))

/-- The record is marked and the journal record dropped. -/
theorem run_abandonCreation {α : Type} {w : World} (hj : Journaled w₀ id w.store) (hb : w.git.branches = w₀.git.branches)
    (ht : w.git.worktrees = w₀.git.worktrees) (hw₀ : w₀.host.tree.WF) (hw : w.host.tree.WF)
    (hu₀ : w₀.host.tree.get (paths.upperDirectory name) = none) (hu : w.host.tree.get (paths.upperDirectory name) = none)
    (e : LifecycleError) :
    ∃ w', (abandonCreation name id e : Fallible LifecycleError α).run exec w = (.error e, w') ∧ NoResidue paths name w₀ w' := by
  refine ⟨_, rfl, hb, ht, ?_, ?_, fun q hq => ?_⟩
  · obtain ⟨hids, r, hr, hops⟩ := hj
    simp only [exec, World.onStore, Store.visible_update, Tables.abandonRecoveryOperation, Tables.setWorkspaceState, hops]
    rw [List.filter_append, List.filter_eq_self.mpr (fun o ho => by simpa using hids o ho)]
    simp [hr]
  · intro r hr
    simp only [exec, World.onStore, Store.visible_update, Tables.abandonRecoveryOperation, Tables.setWorkspaceState,
      Tables.loadWorkspaceRecord] at hr
    have hmem := List.mem_of_find?_eq_some hr
    have hnamed := List.find?_some hr
    obtain ⟨x, -, rfl⟩ := List.mem_map.mp hmem
    split
    · rfl
    · rename_i hx
      rw [if_neg hx] at hnamed
      simp [hx] at hnamed
  · have hne : paths.upperDirectory name ≠ [] := by simp [ProjectPaths.upperDirectory]
    rw [hw₀.rooted.get_under_none hne hu₀ hq]
    exact hw.rooted.get_under_none hne hu hq

/-- Git forgets a worktree, or knows of none, and the registry is flushed. -/
theorem run_unregister {w w' : World} {root path : HostPath} {reply : GitReply}
    (hremove : w.gitWorktreeRemove path = (reply, w')) (hreply : reply = .ok ∨ reply = .notAWorkingTree)
    (hw : w'.host.tree.WF) (hreg : RegistryAt root w'.host.tree)
    (hdir : isDirAt w'.host.tree (root ++ [kGitDirName, worktreesName]) = true) :
    (unregisterLinkedWorktree root path).run exec w = (.ok (), w') := by
  have hcall : (detailed (Io.call (.gitWorktreeRemove path)) (fun _ => .gitFailed)).run exec w = (.ok reply, w') := by
    refine Runs.run_orElseDo_ok ?_
    change (Except.ok (w.gitWorktreeRemove path).1, (w.gitWorktreeRemove path).2) = _
    rw [hremove]
  have hflush : ∀ {p : HostPath}, Ordinary p → isDirAt w'.host.tree p = true →
      (detailed (Io.call (.fsyncDirectory p)) (fun _ => .flushFailed)).run exec w' = (.ok (), w') := by
    intro p hp hd
    refine Runs.run_orElseDo_ok ?_
    rw [Runs.run_call w' _ rfl]
    change ((w'.host.fsyncDirectory p).1, w') = _
    rw [fsyncDirectory_dir hw hp hd]
  have hregistry := hflush (hreg.ordinary.append (by decide)) hdir
  have hgit := hflush (hreg.ordinary.append (by decide)) hreg.git
  rw [unregisterLinkedWorktree, Runs.run_bind, hcall]
  dsimp only
  rw [Runs.run_bind, Runs.run_refuse, if_neg (by rcases hreply with rfl | rfl <;> decide)]
  dsimp only
  rw [Runs.run_bind]
  have hisdir : ∃ b, (isDirectory (root ++ [kGitDirName, worktreesName]) : Fallible RecoveryDetail Bool).run exec w' = (.ok b, w') :=
    ⟨_, congrArg (fun w'' => (Except.ok _, w'')) (exec_reads (c := .stat (root ++ [kGitDirName, worktreesName])) rfl w')⟩
  obtain ⟨b, hb⟩ := hisdir
  rw [hb]
  dsimp only
  rw [Runs.run_bind]
  have honly : (Fallible.onlyIf (b = true) (detailed (Io.call (.fsyncDirectory (root ++ [kGitDirName, worktreesName])))
      (fun _ => .flushFailed))).run exec w' = (.ok (), w') := by
    unfold Fallible.onlyIf
    split
    · exact hregistry
    · rfl
  rw [honly]
  exact hgit

/-- The branch and the registration go. -/
theorem run_rollback {w : World} (hc : Creatable paths name (cStr branch) w₀)
    (hnew : ∀ b ∈ w₀.git.branches, b.1 ≠ cStr branch)
    (hg : Added w₀ (cStr branch) ⟨paths.root ++ [kGitDirName, worktreesName, c], paths.mountPoint ++ [name], some (cStr branch)⟩
      w.git) (hs : Standing paths name c w.host) :
    ∃ h', (rollbackLinkedWorktreeCreation paths.root branch (paths.mountPoint ++ [name]) (paths.stagingDir ++ [name])).run exec w =
        (.ok (), { w with host := h', git := w₀.git }) ∧
      Frame (paths.root ++ [kGitDirName, worktreesName, c] <+: ·) w.host h' := by
  obtain ⟨commit, hg⟩ := hg
  have hf := frame_keep hs.wf (paths.root ++ [kGitDirName, worktreesName, c])
  have hremove := @gitWorktreeRemove_ok w w₀.git.worktrees ⟨paths.root ++ [kGitDirName, worktreesName, c], paths.mountPoint ++
    [name], some (cStr branch)⟩ (by rw [hg]) hc.unmounted
  have hlong : ∀ l : List Name, l.length < 3 → ¬paths.root ++ [kGitDirName, worktreesName, c] <+: paths.root ++ l := by
    intro l hl hp
    have := ((List.prefix_append_right_inj paths.root).mp hp).length_le
    simp at this
    omega
  have hdir := (hf.isDirAt_eq (hlong [kGitDirName, worktreesName] (by simp))).trans hs.registry
  have hreg : RegistryAt paths.root
      (w.host.tree.keep (fun q => ¬paths.root ++ [kGitDirName, worktreesName, c] <+: q)) := by
    refine ⟨hs.git.ordinary, (hf.isDirAt_eq (hlong [kGitDirName] (by simp))).trans hs.git.git, fun n hn => ?_⟩
    obtain ⟨m, hm, hmd⟩ := (isDirAt_iff (by simp)).mp hdir
    rw [hm, Option.some.injEq] at hn
    exact hn ▸ hmd
  have hfirst := run_unregister hremove (Or.inl rfl) hf.wf hreg hdir
  have hsecond := run_unregister (@gitWorktreeRemove_none { w with
      git := { w.git with worktrees := w₀.git.worktrees }
      host := { w.host with tree := w.host.tree.keep (fun q => ¬paths.root ++ [kGitDirName, worktreesName, c] <+: q) } } (paths.stagingDir ++ [name]) hc.unstaged)
    (Or.inr rfl) hf.wf hreg hdir
  obtain ⟨hmain, hheads⟩ := hc.heads hnew
  have hdelete := @gitBranchDelete_ok { w with
      git := { w.git with worktrees := w₀.git.worktrees }
      host := { w.host with tree := w.host.tree.keep (fun q => ¬paths.root ++ [kGitDirName, worktreesName, c] <+: q) } }
    w₀.git.branches (cStr branch) commit (by rw [hg]) hnew (by rw [hg]; exact hmain) hheads
  refine ⟨_, ?_, hf⟩
  rw [rollbackLinkedWorktreeCreation, Runs.run_bind, Runs.run_attempt, hfirst]
  dsimp only
  rw [Runs.run_bind, Runs.run_attempt, hsecond]
  dsimp only
  rw [Runs.run_bind]
  have hcall : (detailed (Io.call (.gitBranchDelete (cStr branch))) (fun _ => .gitFailed)).run exec { w with
      git := { w.git with worktrees := w₀.git.worktrees }
      host := { w.host with tree := w.host.tree.keep (fun q => ¬paths.root ++ [kGitDirName, worktreesName, c] <+: q) } } =
      (.ok .ok, { w with
        host := { w.host with tree := w.host.tree.keep (fun q => ¬paths.root ++ [kGitDirName, worktreesName, c] <+: q) }
        git := w₀.git }) := by
    refine Runs.run_orElseDo_ok ?_
    change (Except.ok (World.gitBranchDelete _ (cStr branch)).1, (World.gitBranchDelete _ (cStr branch)).2) = _
    rw [hdelete, hg]
  rw [hcall]
  rfl

/-- The upper tree goes, and the creation is abandoned. -/
theorem run_removeUpper {α : Type} {w : World} (hc : Creatable paths name (cStr branch) w₀) (hname : Spelled name)
    (hw : w.host.tree.WF) (hd : isDirAt w.host.tree (paths.upperDirectory name) = true) (hg : w.git.branches = w₀.git.branches)
    (ht : w.git.worktrees = w₀.git.worktrees) (hj : Journaled w₀ id w.store) (e : LifecycleError) :
    ∃ w', (do
        (removeAll (paths.upperDirectory name)).ignore
        abandonCreation name id e : Fallible LifecycleError α).run exec w = (.error e, w') ∧ NoResidue paths name w₀ w' := by
  obtain ⟨h', hrun, hf, hnone⟩ := run_removeAll hw (p := paths.upperDirectory name) (by simp [ProjectPaths.upperDirectory])
    (upper_ordinary hc.grounds.registry.ordinary hname) (hw.isDirAt_initial hd (List.dropLast_prefix _))
  obtain ⟨w', hab, hres⟩ := @run_abandonCreation paths name _ _ α { w with host := h' } hj hg ht hc.grounds.wf hf.wf hc.upper hnone e
  refine ⟨w', ?_, hres⟩
  rw [Runs.run_bind, Runs.run_ignore, hrun]
  exact hab

/-- The branch, the registration and the upper tree go. -/
theorem run_undoCreation {α : Type} {w : World} (hc : Creatable paths name (cStr branch) w₀) (hname : Spelled name)
    (hnew : ∀ b ∈ w₀.git.branches, b.1 ≠ cStr branch)
    (hg : Added w₀ (cStr branch) ⟨paths.root ++ [kGitDirName, worktreesName, c], paths.mountPoint ++ [name], some (cStr branch)⟩
      w.git) (hs : Standing paths name c w.host) (hj : Journaled w₀ id w.store) (e : LifecycleError) :
    ∃ w', (undoCreation paths name branch id e : Fallible LifecycleError α).run exec w = (.error e, w') ∧
      NoResidue paths name w₀ w' := by
  obtain ⟨h', hrun, hf⟩ := run_rollback hc hnew hg hs
  have hapart : ¬paths.root ++ [kGitDirName, worktreesName, c] <+: paths.upperDirectory name := by
    rw [upperDirectory_eq, List.prefix_append_right_inj]
    simp [List.cons_prefix_cons, show kGitDirName ≠ kTribiosDirName by decide]
  obtain ⟨w', hrest, hres⟩ := run_removeUpper (α := α) (w := { w with host := h', git := w₀.git }) hc hname hf.wf
    ((hf.isDirAt_eq hapart).trans hs.upper) rfl rfl hj e
  refine ⟨w', ?_, hres⟩
  rw [undoCreation, Runs.run_bind, Runs.run_ignore, hrun]
  exact hrest

end undo

/-! ## The stages of a creation -/

/-- Where a creation stands: how many failures are left, and what is so of Git, of the store and of the host. -/
structure Stage (branch : Name) (w₀ : World) (G : Git → Prop) (S : Store → Prop) (H : Host → Prop)
    (n : Nat) (w : World) : Prop where
  few : n ≤ 1
  unhindered : n = 1 → w₀.env.ioFault = none ∧ GitTakes branch w₀
  env : w.env = w₀.env
  git : G w.git
  store : S w.store
  host : H w.host

/-- No record of the name, or a reclaimed one. -/
def Retired (name : Name) (s : Store) : Prop := ∀ r, s.visible.loadWorkspaceRecord name = some r → r.state = .reclaimed

/-- What stands on the host once the upper tree is made. -/
structure Ready (paths : ProjectPaths) (name : Name) (w₀ : World) (h : Host) : Prop where
  wf : h.tree.WF
  git : RegistryAt paths.root h.tree
  staging : isDirAt h.tree paths.stagingDir = true
  upper : isDirAt h.tree (paths.upperDirectory name) = true
  gitFile : h.tree.get (paths.upperDirectory name ++ [kGitDirName]) = none
  admins : ∀ t ∈ w₀.git.worktrees,
    paths.root ++ [kGitDirName, worktreesName] <+: t.admin ∧ (h.tree.get t.admin).isSome

section stages

variable {F : Faults} {paths : ProjectPaths} {name branch : Name} {w₀ : World} {G : Git → Prop} {S : Store → Prop}
variable {H H' : Host → Prop} {n : Nat} {w : World}

theorem Stage.last (h : Stage branch w₀ G S H (n + 1) w) : n = 0 := by
  have := h.few
  omega

theorem Stage.less (h : Stage branch w₀ G S H (n + 1) w) : Stage branch w₀ G S H n w :=
  ⟨by have := h.few; omega, fun hn => by have := h.last; omega, h.env, h.git, h.store, h.host⟩

theorem Stage.onHost (h : Stage branch w₀ G S H n w) {h' : Host} (hh : H' h') :
    Stage branch w₀ G S H' n { w with host := h' } := ⟨h.few, h.unhindered, h.env, h.git, h.store, hh⟩

/-- The failure injected at a boundary, if there is one. -/
theorem exec_injected (b : Boundary) (w : World) : exec (.injectedIoError b) w = (match w.env.ioFault with
    | some (b', e) => if b' = b then .error e else .ok ()
    | none => .ok (), w) := rfl

/-- An injected error is the one failure. -/
theorem stage_injected (b : Boundary) :
    Endures F (Stage branch w₀ G S H) (Io.call (.injectedIoError b)) (fun _ => Stage branch w₀ G S H)
      (fun _ n w => n = 0 ∧ Stage branch w₀ G S H n w) := by
  refine endures_call rfl (fun n w h => ?_) (fun n w e _ hi _ => by cases hi)
  have hlast : w.env.ioFault ≠ none → n = 0 := by
    intro hf
    have := h.few
    by_contra hn
    exact hf (h.env ▸ (h.unhindered (by omega)).1)
  rw [exec_injected]
  cases hf : w.env.ioFault with
  | none => exact h
  | some f =>
    dsimp only
    split
    · exact ⟨hlast (by simp [hf]), h⟩
    · exact h

theorem stage_clock {X : LifecycleError → Assertion} :
    Endures F (Stage branch w₀ G S H) (stored .clock) (fun _ => Stage branch w₀ G S H) X := by
  refine endures_orElseDo (X := fun _ _ _ => False) ?_ (fun _ _ _ h => h.elim)
  exact endures_call rfl (fun n w h => h) (fun n w e _ hi _ => by cases hi)

/-- Nothing has happened yet. -/
abbrev Fresh (branch : Name) (w₀ : World) : Assertion :=
  Stage branch w₀ (· = w₀.git) (· = w₀.store) (· = w₀.host)

theorem noResidue_fresh (hc : Creatable paths name branch w₀) (h : Fresh branch w₀ n w) :
    NoResidue paths name w₀ w := by
  refine ⟨by rw [h.git], by rw [h.git], by rw [h.store], fun r hr => ?_, fun q _ => by rw [h.host]⟩
  rw [h.store] at hr
  exact hc.record r hr

theorem journalCreation_endures (hc : Creatable paths name branch w₀) (text : Name) :
    Endures F (Fresh branch w₀) (journalCreation name text)
      (fun id => Stage branch w₀ (· = w₀.git) (fun s => Journaled w₀ id s ∧ Retired name s) (· = w₀.host))
      (fun _ _ => NoResidue paths name w₀) := by
  refine endures_bind (P := fun _ => Fresh branch w₀) ?_ (fun _ => ?_)
  · exact endures_orElseDo (stage_injected _) (fun x => endures_fail (fun n w h => noResidue_fresh hc h.2))
  · refine endures_orElseDo (X := fun _ => Fresh branch w₀) ?_
      (fun x => endures_fail (fun n w h => noResidue_fresh hc h))
    refine endures_call rfl (fun n w h => ?_) (fun n w e h _ _ => h.less)
    refine ⟨h.few, h.unhindered, h.env, h.git, ⟨⟨?_, ?_⟩, fun r hr => ?_⟩, h.host⟩
    · rw [h.store]
      exact hc.ids
    · refine ⟨{ id := w.store.visible.nextId, workspace := name, kind := .workspaceCreate, path := bindText [name],
                target := bindText (RelPath.ofText text) }, rfl, ?_⟩
      change (w.store.update _).visible.operations = _
      rw [Store.visible_update, h.store]
      rfl
    · change (w.store.update _).visible.loadWorkspaceRecord name = some r at hr
      rw [h.store, Store.visible_update] at hr
      exact hc.record r hr

/-- The journal record is dropped before anything else was done. -/
theorem run_dropJournal {id : Nat} (h : Stage branch w₀ (· = w₀.git) (fun s => Journaled w₀ id s ∧ Retired name s)
    (· = w₀.host) n w) (e : LifecycleError) :
    ∃ w', (do
        (Io.call (.abandonRecoveryOperation id)).ignore
        Fallible.fail e : Fallible LifecycleError Unit).run exec w = (.error e, w') ∧ NoResidue paths name w₀ w' := by
  refine ⟨_, rfl, by rw [← h.git]; rfl, by rw [← h.git]; rfl, ?_, fun r hr => ?_, fun q _ => by rw [← h.host]; rfl⟩
  · obtain ⟨⟨hids, r, hr, hops⟩, -⟩ := h.store
    simp only [exec, World.onStore, Store.visible_update, Tables.abandonRecoveryOperation, hops]
    rw [List.filter_append, List.filter_eq_self.mpr (fun o ho => by simpa using hids o ho)]
    simp [hr]
  · simp only [exec, World.onStore, Store.visible_update, Tables.abandonRecoveryOperation] at hr
    exact h.store.2 r hr

/-- What a run that is left alone comes to. -/
theorem endures_alone {A : Assertion} {α : Type} {p : Fallible LifecycleError α} {e : LifecycleError}
    {Q : α → Assertion} (hA : ∀ n w, A n w → n = 0)
    (hrun : ∀ w, A 0 w → ∃ w', p.run exec w = (.error e, w') ∧ NoResidue paths name w₀ w') :
    Endures F A p Q (fun _ _ => NoResidue paths name w₀) := by
  refine endures_run hA (fun w hw => ?_)
  obtain ⟨w', hrun, hres⟩ := hrun w hw
  rw [hrun]
  exact hres

theorem saveCreating_endures (id : Nat) (record : WorkspaceRecord) :
    Endures F (Stage branch w₀ (· = w₀.git) (fun s => Journaled w₀ id s ∧ Retired name s) (· = w₀.host))
      (saveCreating record id) (fun _ => Stage branch w₀ (· = w₀.git) (Journaled w₀ id) (· = w₀.host))
      (fun _ _ => NoResidue paths name w₀) := by
  refine endures_bind (P := fun _ => Stage branch w₀ (· = w₀.git) (fun s => Journaled w₀ id s ∧ Retired name s)
    (· = w₀.host)) ?_ (fun _ => ?_)
  · exact endures_orElseDo (stage_injected _) (fun x => endures_alone (fun n w h => h.1) (fun w h => run_dropJournal h.2 _))
  · refine endures_orElseDo (X := fun _ n w => n = 0 ∧ Stage branch w₀ (· = w₀.git)
      (fun s => Journaled w₀ id s ∧ Retired name s) (· = w₀.host) n w) ?_
      (fun x => endures_alone (fun n w h => h.1) (fun w h => run_dropJournal h.2 _))
    refine endures_call rfl (fun n w h => ?_) (fun n w e h _ _ => ⟨h.last, h.less⟩)
    refine ⟨h.few, h.unhindered, h.env, h.git, ⟨h.store.1.1, ?_⟩, h.host⟩
    obtain ⟨r, hr, hops⟩ := h.store.1.2
    refine ⟨r, hr, ?_⟩
    change (w.store.update _).visible.operations = _
    rw [Store.visible_update]
    exact hops

/-! ## The upper tree -/

theorem site_upper (hc : Creatable paths name branch w₀) (hname : Spelled name) :
    Site w₀.host (paths.upperDirectory name) := by
  have hsplit : paths.upperDirectory name = paths.workspacesDir ++ [name] ++ [upperName] := by simp [ProjectPaths.upperDirectory]
  refine ⟨upper_ordinary hc.grounds.registry.ordinary hname, fun a ha n hn => ?_⟩
  rw [hsplit] at ha
  rcases List.prefix_concat_iff.mp ha with rfl | ha
  · rw [← hsplit, hc.upper] at hn
    cases hn
  · rcases List.prefix_concat_iff.mp ha with rfl | ha
    · exact hc.directory n hn
    · have hd := hc.grounds.wf.isDirAt_initial hc.grounds.workspaces ha
      have hne : a ≠ [] := by
        rintro rfl
        rw [hc.grounds.wf.get_nil] at hn
        cases hn
      obtain ⟨m, hm, hmd⟩ := (isDirAt_iff hne).mp hd
      rw [hm, Option.some.injEq] at hn
      exact hn ▸ hmd

/-- No directory on the way can fail to be made, as long as there is no upper tree. -/
theorem ensureUpper_endures (hc : Creatable paths name branch w₀) (hname : Spelled name) {X : Errno → Assertion}
    (hS : ∀ {n w}, Stage branch w₀ G S H n w → w.host = w₀.host) (p : HostPath) :
    p <+: paths.upperDirectory name →
    Endures (tidied paths name branch) (Stage branch w₀ G S H) (Fallible.forEach (fun p => Io.call (.ensureDirectory p)) p.inits)
      (fun _ => Stage branch w₀ G S (Paved p w₀.host)) X := by
  have hone : ∀ {q : HostPath}, q ≠ paths.upperDirectory name → q <+: paths.upperDirectory name → ∀ c,
      q ++ [c] <+: paths.upperDirectory name →
      Endures (tidied paths name branch) (Stage branch w₀ G S (Paved q w₀.host)) (Io.call (.ensureDirectory (q ++ [c])))
        (fun _ => Stage branch w₀ G S (Paved (q ++ [c]) w₀.host)) X := by
    intro q hne hq c hqc
    refine endures_call rfl (fun n w h => ?_) (fun n w e h _ hmay => ?_)
    · obtain ⟨h', hok, hp⟩ := ensureDirectory_paved h.host.wf ((h.host.site _ (site_upper hc hname)).initial hqc)
        (by rw [List.dropLast_concat]; exact h.host.dir)
      have hexec : exec (.ensureDirectory (q ++ [c])) w = (.ok (), { w with host := h' }) := by
        change ((w.host.ensureDirectory (q ++ [c])).1, { w with host := (w.host.ensureDirectory (q ++ [c])).2 }) = _
        rw [hok]
      rw [hexec]
      refine h.onHost ⟨hp.wf, hp.dir, fun r hr => hp.dirs r (h.host.dirs r hr), fun r hr => ?_, fun r hr =>
        hp.site r (h.host.site r hr)⟩
      rw [hp.off r hr]
      exact h.host.off r (fun hrq => hr (hrq.trans (List.prefix_append _ _)))
    · have hnone : w.host.tree.get (paths.upperDirectory name) = none := by
        rw [h.host.off _ (fun hp => hne (hq.eq_of_length (le_antisymm hq.length_le hp.length_le)))]
        exact hc.upper
      obtain ⟨m, hm, -⟩ := (isDirAt_iff (by simp [ProjectPaths.upperDirectory])).mp hmay
      rw [hnone] at hm
      cases hm
  induction p using List.reverseRecOn with
  | nil =>
    intro _
    refine endures_bind (P := fun _ => Stage branch w₀ G S (Paved [] w₀.host)) ?_ (fun _ => endures_pure (fun _ _ h => h))
    refine endures_call rfl (fun n w h => ?_) (fun n w e h _ hmay => ?_)
    · obtain ⟨h', hok, hp⟩ := ensureDirectory_paved (p := []) hc.grounds.wf ((site_upper hc hname).initial List.nil_prefix)
        (isDirAt_nil _)
      rw [← hS h] at hok
      have hexec : exec (.ensureDirectory []) w = (.ok (), { w with host := h' }) := by
        change ((w.host.ensureDirectory []).1, { w with host := (w.host.ensureDirectory []).2 }) = _
        rw [hok]
      rw [hexec]
      exact h.onHost hp
    · obtain ⟨m, hm, -⟩ := (isDirAt_iff (by simp [ProjectPaths.upperDirectory])).mp hmay
      rw [hS h, hc.upper] at hm
      cases hm
  | append_singleton q c ih =>
    intro hqc
    have hq : q <+: paths.upperDirectory name := (List.prefix_append q [c]).trans hqc
    have hne : q ≠ paths.upperDirectory name := by
      rintro rfl
      have := hqc.length_le
      simp at this
    have hinits : (q ++ [c]).inits = q.inits ++ [q ++ [c]] := by simp [List.inits_append]
    rw [hinits, Fallible.forEach_append]
    refine endures_bind (ih hq) (fun _ => ?_)
    exact endures_bind (hone hne hq c hqc) (fun _ => endures_pure (fun _ _ h => h))

theorem ready_of_paved (hc : Creatable paths name branch w₀) {h : Host}
    (hp : Paved (paths.upperDirectory name) w₀.host h) : Ready paths name w₀ h := by
  have hoff : ∀ l : List Name, ¬paths.root ++ kGitDirName :: l <+: paths.upperDirectory name := by
    intro l
    rw [upperDirectory_eq, List.prefix_append_right_inj]
    simp [List.cons_prefix_cons, show kGitDirName ≠ kTribiosDirName by decide]
  refine ⟨hp.wf, ⟨hc.grounds.registry.ordinary, hp.dirs _ hc.grounds.registry.git, ?_⟩, hp.dirs _ hc.grounds.staging, hp.dir, ?_,
    fun t ht => ?_⟩
  · rw [hp.off _ (hoff [worktreesName])]
    exact hc.grounds.registry.registry
  · rw [hp.off _ (fun hpre => by have := hpre.length_le; simp at this)]
    exact hc.grounds.wf.rooted.get_under_none (by simp [ProjectPaths.upperDirectory]) hc.upper (List.prefix_append _ _)
  · obtain ⟨hpre, hs⟩ := hc.admins t ht
    obtain ⟨l, hl⟩ := hpre
    refine ⟨⟨l, hl⟩, ?_⟩
    have : t.admin = paths.root ++ kGitDirName :: (worktreesName :: l) := by rw [← hl]; simp
    rw [this, hp.off _ (hoff _), ← this]
    exact hs

theorem createStorage_endures (hc : Creatable paths name branch w₀) (hname : Spelled name) (id : Nat) :
    Endures (tidied paths name branch) (Stage branch w₀ (· = w₀.git) (Journaled w₀ id) (· = w₀.host))
      (createStorage paths name id) (fun _ => Stage branch w₀ (· = w₀.git) (Journaled w₀ id) (Ready paths name w₀))
      (fun _ _ => NoResidue paths name w₀) := by
  refine endures_bind (P := fun _ => Stage branch w₀ (· = w₀.git) (Journaled w₀ id) (· = w₀.host)) ?_ (fun _ => ?_)
  · refine endures_orElseDo (stage_injected _) (fun x => endures_alone (e := .storageFailed x) (fun n w h => h.1) (fun w h => ?_))
    have hgit := h.2.git
    have hhost := h.2.host
    exact run_abandonCreation h.2.store (by rw [hgit]) (by rw [hgit]) hc.grounds.wf (by rw [hhost]; exact hc.grounds.wf) hc.upper
      (by rw [hhost]; exact hc.upper) _
  · refine endures_bind (P := fun _ => Stage branch w₀ (· = w₀.git) (Journaled w₀ id) (Ready paths name w₀)) ?_
      (fun _ => ?_)
    · refine endures_orElseDo (X := fun _ _ _ => False) ?_ (fun _ _ _ h => h.elim)
      exact (ensureUpper_endures hc hname (fun h => h.host) _ (List.prefix_refl _)).mono (fun _ _ h => h)
        (fun _ _ _ h => ⟨h.few, h.unhindered, h.env, h.git, h.store, ready_of_paved hc h.host⟩) (fun _ _ _ h => h)
    · refine endures_orElseDo (X := fun _ _ _ => False) ?_ (fun _ _ _ h => h.elim)
      have hparent : parentPath (paths.upperDirectory name) = paths.workspacesDir ++ [name] := by
        simp [parentPath, ProjectPaths.upperDirectory, List.dropLast_append_of_ne_nil]
      refine endures_call rfl (fun n w h => ?_) (fun n w e h _ hmay => ?_)
      · have hd := h.host.wf.isDirAt_initial h.host.upper (List.dropLast_prefix _)
        have ho : Ordinary (parentPath (paths.upperDirectory name)) :=
          (upper_ordinary hc.grounds.registry.ordinary hname).of_initial (List.dropLast_prefix _)
        have hexec : exec (.fsyncDirectory (parentPath (paths.upperDirectory name))) w = (.ok (), w) := by
          change ((w.host.fsyncDirectory _).1, { w with host := (w.host.fsyncDirectory _).2 }) = _
          rw [fsyncDirectory_dir h.host.wf ho hd]
        rw [hexec]
        exact h
      · have := congrArg List.length (show parentPath (paths.upperDirectory name) = paths.upperDirectory name from hmay)
        rw [hparent] at this
        simp [ProjectPaths.upperDirectory] at this

/-! ## The worktree -/

/-- The directory Git chose for the new worktree, and what made it choose so. -/
structure Chosen (paths : ProjectPaths) (branch c : Name) (w₀ : World) : Prop where
  spelled : Spelled c
  newBranch : ∀ b ∈ w₀.git.branches, b.1 ≠ cStr branch
  newAdmin : ∀ t ∈ w₀.git.worktrees, t.admin ≠ paths.root ++ [kGitDirName, worktreesName, c]

section apart

variable {R : HostPath → Prop} {h h' : Host} {c : Name}

theorem stage_not_git (l : List Name) : ¬paths.stagingDir ++ [name] <+: paths.root ++ kGitDirName :: l := by
  rw [stagingDir_eq, List.append_assoc, List.prefix_append_right_inj]
  simp [List.cons_prefix_cons, show kTribiosDirName ≠ kGitDirName by decide]

theorem stage_not_upper (l : List Name) : ¬paths.stagingDir ++ [name] <+: paths.upperDirectory name ++ l := by
  rw [stagingDir_eq, upperDirectory_eq, List.append_assoc, List.append_assoc, List.prefix_append_right_inj]
  simp [List.cons_prefix_cons, show stagingName ≠ workspacesName by decide]

theorem git_not_upper (l l' : List Name) : ¬paths.root ++ kGitDirName :: l <+: paths.upperDirectory name ++ l' := by
  rw [upperDirectory_eq, List.append_assoc, List.prefix_append_right_inj]
  simp [List.cons_prefix_cons, show kGitDirName ≠ kTribiosDirName by decide]

theorem stage_not_staging : ¬paths.stagingDir ++ [name] <+: paths.stagingDir := by
  intro hp
  have := hp.length_le
  simp at this

theorem admin_ordinary (hroot : Ordinary paths.root) (hc : Spelled c) : Ordinary (paths.root ++ [kGitDirName, worktreesName, c]) :=
  hroot.append (ordinary_names hc.1)

theorem Ready.frame (hr : Ready paths name w₀ h) (hf : Frame (paths.stagingDir ++ [name] <+: ·) h h') :
    Ready paths name w₀ h' := by
  have hupper : ¬paths.stagingDir ++ [name] <+: paths.upperDirectory name := by
    have := @stage_not_upper paths name []
    rwa [List.append_nil] at this
  refine ⟨hf.wf, ⟨hr.git.ordinary, (hf.isDirAt_eq (stage_not_git [])).trans hr.git.git, fun n hn => ?_⟩,
    (hf.isDirAt_eq stage_not_staging).trans hr.staging, (hf.isDirAt_eq hupper).trans hr.upper,
    (hf.get_none (stage_not_upper _)).mpr hr.gitFile, fun t ht => ?_⟩
  · obtain ⟨m, hm, he⟩ := Tree.get_of_sees (hf.same _ (stage_not_git [worktreesName])) hn
    rw [Node.isDir_of_seen he]
    exact hr.git.registry m hm
  · obtain ⟨⟨l, hl⟩, hs⟩ := hr.admins t ht
    refine ⟨⟨l, hl⟩, ?_⟩
    have hform : t.admin = paths.root ++ kGitDirName :: (worktreesName :: l) := by rw [← hl]; simp
    rw [Option.isSome_iff_ne_none, hform, ne_eq, hf.get_none (stage_not_git _), ← hform, ← ne_eq, ← Option.isSome_iff_ne_none]
    exact hs

theorem Standing.frame (hs : Standing paths name c h) (hf : Frame R h h') (hgit : ¬R (paths.root ++ [kGitDirName]))
    (hstaging : ¬R paths.stagingDir) (hreg : ¬R (paths.root ++ [kGitDirName, worktreesName])) (hadmin : ¬R (paths.root ++ [kGitDirName, worktreesName, c]))
    (hfiles : HoldsFiles h'.tree (paths.root ++ [kGitDirName, worktreesName, c])) (hupper : ¬R (paths.upperDirectory name)) :
    Standing paths name c h' := by
  have hd := (hf.isDirAt_eq hreg).trans hs.registry
  refine ⟨hf.wf, ⟨hs.git.ordinary, (hf.isDirAt_eq hgit).trans hs.git.git, fun n hn => ?_⟩,
    (hf.isDirAt_eq hstaging).trans hs.staging, hd,
    (hf.isDirAt_eq hadmin).trans hs.admin, hfiles, (hf.isDirAt_eq hupper).trans hs.upper⟩
  obtain ⟨m, hm, hmd⟩ := (isDirAt_iff (by simp)).mp hd
  rw [hm, Option.some.injEq] at hn
  exact hn ▸ hmd

/-- What is removed beneath the staging directory is apart from all that. -/
theorem Standing.unstage (hs : Standing paths name c h) (hf : Frame (paths.stagingDir ++ [name] <+: ·) h h') :
    Standing paths name c h' := by
  have hupper : ¬paths.stagingDir ++ [name] <+: paths.upperDirectory name := by
    have := @stage_not_upper paths name []
    rwa [List.append_nil] at this
  refine hs.frame hf (stage_not_git []) stage_not_staging (stage_not_git [worktreesName]) (stage_not_git [worktreesName, c])
    (hs.files.frame hf (fun x => ?_)) hupper
  rw [List.append_assoc]
  exact stage_not_git [worktreesName, c, x]

/-- One of the files of the administrative directory is written. -/
theorem Standing.write (hs : Standing paths name c h) {x : Name}
    (hf : Frame (· = paths.root ++ [kGitDirName, worktreesName, c] ++ [x]) h h')
    (hfiles : HoldsFiles h'.tree (paths.root ++ [kGitDirName, worktreesName, c])) : Standing paths name c h' := by
  have hshort : ∀ l : List Name, l.length < 4 → ¬paths.root ++ l = paths.root ++ [kGitDirName, worktreesName, c] ++ [x] := by
    intro l hl he
    have := congrArg List.length he
    simp at this
    omega
  have hstaging : paths.stagingDir ≠ paths.root ++ [kGitDirName, worktreesName, c] ++ [x] := by
    rw [stagingDir_eq]
    exact hshort _ (by simp)
  refine hs.frame hf (hshort _ (by simp)) hstaging (hshort _ (by simp)) (hshort _ (by simp)) hfiles (fun he => ?_)
  have := @git_not_upper paths name [worktreesName, c, x] []
  rw [List.append_nil, he] at this
  exact this (by simp)

end apart

section register

variable {id : Nat} {c : Name} {X : RegisterError → Assertion}

/-- The upper tree is there, and Git has not been asked yet. -/
abbrev Waiting (paths : ProjectPaths) (name branch : Name) (w₀ : World) (id : Nat) : Assertion :=
  Stage (cStr branch) w₀ (· = w₀.git) (Journaled w₀ id) (Ready paths name w₀)

/-- The worktree is registered at a path, and a condition of the host. -/
abbrev Connected (paths : ProjectPaths) (name branch c : Name) (w₀ : World) (id : Nat) (path : HostPath) (H : Host → Prop) :
    Assertion :=
  Stage (cStr branch) w₀ (Added w₀ (cStr branch) ⟨paths.root ++ [kGitDirName, worktreesName, c], path, some (cStr branch)⟩)
    (Journaled w₀ id) (fun h => Standing paths name c h ∧ H h)

/-- The upper tree has no `.git` file yet. -/
def Unlinked (paths : ProjectPaths) (name : Name) (h : Host) : Prop :=
  h.tree.get (paths.upperDirectory name ++ [kGitDirName]) = none

/-- And the worktree in staging has the file that points at its administrative directory. -/
def Staged (paths : ProjectPaths) (name c : Name) (h : Host) : Prop :=
  Unlinked paths name h ∧ ∃ m, h.tree.get (paths.stagingDir ++ [name] ++ [kGitDirName]) = some m ∧
    m.contents = .file (gitdirMarker ++ pathText (paths.root ++ [kGitDirName, worktreesName, c]) ++ [10])

/-- The worktree is where the Workspace is going to be served. -/
abbrev Mounted (paths : ProjectPaths) (name branch c : Name) (w₀ : World) (id : Nat) : Assertion :=
  Connected paths name branch c w₀ id (paths.mountPoint ++ [name]) (Unlinked paths name)

/-- The branch is there, and no worktree on it. -/
def Branched (w₀ : World) (branch : Name) (g : Git) : Prop :=
  ∃ commit, g = { w₀.git with branches := w₀.git.branches ++ [(branch, commit)] }

theorem stage_ordinary (hc : Creatable paths name (cStr branch) w₀) (hname : Spelled name) :
    Ordinary (paths.stagingDir ++ [name]) := by
  rw [stagingDir_eq, List.append_assoc]
  exact hc.grounds.registry.ordinary.append (Ordinary.append (p := [kTribiosDirName, stagingName]) (by decide) hname.1)

/-- What is left in staging goes, but for an empty directory. -/
theorem clearStaging_endures (hc : Creatable paths name (cStr branch) w₀) (hname : Spelled name) {X : RegisterError → Assertion} :
    Endures (tidied paths name (cStr branch)) (Waiting paths name branch w₀ id) (removeAll (paths.stagingDir ++ [name])).ignore
      (fun _ n w => Waiting paths name branch w₀ id n w ∧ Emptied (paths.stagingDir ++ [name]) w.host.tree) X := by
  -- no failure is left once the branch is there
  have hnew : ∀ {n w}, Waiting paths name branch w₀ id (n + 1) w → ¬∃ b ∈ w.git.branches, b.1 = cStr branch := by
    rintro n w h ⟨b, hb, he⟩
    rw [h.git] at hb
    exact (h.unhindered (by have := h.few; omega)).2.newBranch b hb he
  refine endures_ignore (endures_emptied (fun n w h => ⟨h.host.wf, ?_⟩) (by simp) (stage_ordinary hc hname)
    (fun n w h' h hf => h.onHost (h.host.frame hf)) (fun n w h => h.less) (fun n w h hmay => ?_) (fun n w q h hq hmay => ?_))
  · rw [List.dropLast_concat]
    exact h.host.staging
  · exact (hmay rfl).resolve_left (hnew h)
  · exact (hmay hq).resolve_left (hnew h)

/-- The staging directory is there already. -/
theorem prepareStaging_endures (hc : Creatable paths name (cStr branch) w₀) {X : RegisterError → Assertion} :
    Endures F (fun n w => Waiting paths name branch w₀ id n w ∧ Emptied (paths.stagingDir ++ [name]) w.host.tree)
      (createDirectories (parentPath (paths.stagingDir ++ [name]))).ignore
      (fun _ n w => Waiting paths name branch w₀ id n w ∧ Emptied (paths.stagingDir ++ [name]) w.host.tree) X := by
  rw [parentPath, List.dropLast_concat, createDirectories]
  refine endures_ignore (endures_forEach (fun p hp => endures_call rfl (fun n w h => ?_) (fun n w e h _ _ => ⟨h.1.less, h.2⟩)))
  have hpre := (List.mem_inits _ _).mp hp
  have hd := h.1.host.wf.isDirAt_initial h.1.host.staging hpre
  have ho : Ordinary p := by
    have : Ordinary paths.stagingDir := by
      rw [stagingDir_eq]
      exact hc.grounds.registry.ordinary.append (by decide)
    exact this.of_initial hpre
  have hexec : exec (.ensureDirectory p) w = (.ok (), w) := by
    change ((w.host.ensureDirectory p).1, { w with host := (w.host.ensureDirectory p).2 }) = _
    rw [ensureDirectory_dir h.1.host.wf ho hd]
  rw [hexec]
  exact h

/-- Git refuses the branch and there is no failure left, or it has made it. -/
theorem branch_endures :
    Endures F (fun n w => Waiting paths name branch w₀ id n w ∧ Emptied (paths.stagingDir ++ [name]) w.host.tree)
      ((Io.call (.gitBranch paths.root (cStr branch))).orFail RegisterError.worktreeAddFailed)
      (fun reply n w => (reply ≠ .ok → n = 0 ∧ Waiting paths name branch w₀ id n w) ∧
        (reply = .ok → (∀ b ∈ w₀.git.branches, b.1 ≠ cStr branch) ∧ Stage (cStr branch) w₀ (Branched w₀ (cStr branch))
          (Journaled w₀ id) (fun h => Ready paths name w₀ h ∧ Emptied (paths.stagingDir ++ [name]) h.tree) n w))
      (fun _ n w => n = 0 ∧ Waiting paths name branch w₀ id n w) := by
  refine endures_orFail (X := fun _ n w => n = 0 ∧ Waiting paths name branch w₀ id n w) (endures_call rfl (fun n w h => ?_)
    (fun n w e h _ _ => ⟨h.1.last, h.1.less⟩)) (fun _ _ _ h => h)
  obtain ⟨h, hempty⟩ := h
  rcases gitBranch_cases w paths.root (cStr branch) with hfailed | ⟨commit, hok, hnew⟩
  · have hexec : exec (.gitBranch paths.root (cStr branch)) w = (.ok .failed, w) := by
      change (Except.ok (w.gitBranch _ _).1, (w.gitBranch _ _).2) = _
      rw [hfailed]
    rw [hexec]
    refine ⟨fun _ => ⟨?_, h⟩, fun he => by cases he⟩
    by_contra hn
    have ht := (h.unhindered (by have := h.few; omega)).2
    have htakes := @gitBranch_takes w paths.root (cStr branch) (by rw [h.git]; exact ht.commit) (by rw [h.git]; exact ht.newBranch)
      (by rw [h.git]; exact ht.accepts) h.host.git.git
    rw [hfailed] at htakes
    cases htakes
  · have hexec : exec (.gitBranch paths.root (cStr branch)) w =
        (.ok .ok, { w with git := { w.git with branches := w.git.branches ++ [(cStr branch, commit)] } }) := by
      change (Except.ok (w.gitBranch _ _).1, (w.gitBranch _ _).2) = _
      rw [hok]
    rw [hexec]
    refine ⟨fun hne => absurd rfl hne, fun _ => ⟨by rw [← h.git]; exact hnew, ?_⟩⟩
    exact ⟨h.few, h.unhindered, h.env, ⟨commit, by rw [← h.git]⟩, h.store, h.host, hempty⟩

theorem apart_of_git {c : Name} {q : HostPath} (hstage : ¬paths.stagingDir ++ [name] <+: q)
    (hgit : ¬paths.root ++ [kGitDirName, worktreesName] <+: q) : ¬(q = paths.root ++ [kGitDirName, worktreesName] ∨
      paths.root ++ [kGitDirName, worktreesName, c] <+: q ∨ paths.stagingDir ++ [name] <+: q) := by
  rintro (he | hp | hp)
  · exact hgit (he ▸ List.prefix_refl _)
  · exact hgit (List.IsPrefix.trans ⟨[c], by simp⟩ hp)
  · exact hstage hp

/-- Git registers the worktree in staging. -/
theorem worktreeAdd_endures (hc : Creatable paths name (cStr branch) w₀) (hname : Spelled name)
    (hnew : ∀ b ∈ w₀.git.branches, b.1 ≠ cStr branch) :
    Endures (tidied paths name (cStr branch)) (Stage (cStr branch) w₀ (Branched w₀ (cStr branch)) (Journaled w₀ id)
        (fun h => Ready paths name w₀ h ∧ Emptied (paths.stagingDir ++ [name]) h.tree))
      ((Io.call (.gitWorktreeAdd paths.root (cStr branch) (paths.stagingDir ++ [name]))).orFail RegisterError.worktreeAddFailed)
      (fun reply n w => reply = .ok ∧ ∃ c, Chosen paths branch c w₀ ∧
        Connected paths name branch c w₀ id (paths.stagingDir ++ [name]) (Staged paths name c) n w) X := by
  refine endures_orFail (X := fun _ _ _ => False) (endures_call rfl (fun n w h => ?_) (fun n w e _ _ hmay => hmay.elim))
    (fun _ _ _ h => h.elim)
  obtain ⟨hready, hempty⟩ := h.host
  obtain ⟨commit, hgit⟩ := h.git
  have hstaging : Ordinary paths.stagingDir := by
    rw [stagingDir_eq]
    exact hc.grounds.registry.ordinary.append (by decide)
  have hapart : ¬paths.root ++ [kGitDirName] <+: paths.stagingDir ++ [name] := by
    rw [stagingDir_eq, List.append_assoc, List.prefix_append_right_inj]
    simp [List.cons_prefix_cons, show kGitDirName ≠ kTribiosDirName by decide]
  have hbranch : ∃ b ∈ w.git.branches, b.1 = cStr branch := by
    rw [hgit]
    exact ⟨_, List.mem_append_right _ List.mem_cons_self, rfl⟩
  obtain ⟨c, w', hok, hreg⟩ := gitWorktreeAdd_takes hready.wf hready.git hstaging hready.staging hname hapart hbranch
    (by rw [hgit]; exact hc.unstaged) hempty
  have hexec : exec (.gitWorktreeAdd paths.root (cStr branch) (paths.stagingDir ++ [name])) w = (.ok .ok, w') := by
    change (Except.ok (w.gitWorktreeAdd _ _ _).1, (w.gitWorktreeAdd _ _ _).2) = _
    rw [hok]
  rw [hexec]
  have hl := hreg.linked
  have hupper : ∀ l : List Name, ¬(paths.upperDirectory name ++ l = paths.root ++ [kGitDirName, worktreesName] ∨
      paths.root ++ [kGitDirName, worktreesName, c] <+: paths.upperDirectory name ++ l ∨
      paths.stagingDir ++ [name] <+: paths.upperDirectory name ++ l) :=
    fun l => apart_of_git (stage_not_upper l) (git_not_upper [worktreesName] l)
  have hgitDir : ¬(paths.root ++ [kGitDirName] = paths.root ++ [kGitDirName, worktreesName] ∨
      paths.root ++ [kGitDirName, worktreesName, c] <+: paths.root ++ [kGitDirName] ∨
      paths.stagingDir ++ [name] <+: paths.root ++ [kGitDirName]) :=
    apart_of_git (stage_not_git []) (fun hp => by have := hp.length_le; simp at this)
  have hstagingDir : ¬(paths.stagingDir = paths.root ++ [kGitDirName, worktreesName] ∨
      paths.root ++ [kGitDirName, worktreesName, c] <+: paths.stagingDir ∨ paths.stagingDir ++ [name] <+: paths.stagingDir) := by
    refine apart_of_git stage_not_staging (fun hp => ?_)
    rw [stagingDir_eq, List.prefix_append_right_inj] at hp
    exact absurd (List.cons_prefix_cons.mp hp).1 (by decide)
  refine ⟨rfl, c, ⟨hreg.spelled, hnew, fun t ht he => ?_⟩, h.few, h.unhindered, by rw [hreg.env, h.env], ⟨commit, ?_⟩,
    by rw [hreg.store]; exact h.store, ⟨⟨hl.frame.wf, ⟨hready.git.ordinary, (hl.frame.isDirAt_eq hgitDir).trans hready.git.git,
      fun n hn => ?_⟩, (hl.frame.isDirAt_eq hstagingDir).trans hready.staging, hl.registry, hl.admin, hl.files, ?_⟩, ?_, hl.gitFile⟩⟩
  · have := (hready.admins t ht).2
    rw [he, hreg.newAdmin] at this
    cases this
  · rw [hreg.git, hgit]
  · obtain ⟨m, hm, hmd⟩ := (isDirAt_iff (by simp)).mp hl.registry
    rw [hm, Option.some.injEq] at hn
    exact hn ▸ hmd
  · have := hupper []
    rw [List.append_nil] at this
    exact (hl.frame.isDirAt_eq this).trans hready.upper
  · exact (hl.frame.get_none (hupper [kGitDirName])).mpr hready.gitFile

/-- The first line of the file Git left says where the administrative directory is. -/
theorem readGitFile_endures :
    Endures (tidied paths name (cStr branch)) (Connected paths name branch c w₀ id (paths.stagingDir ++ [name]) (Staged paths name c))
      (readFirstLine (paths.stagingDir ++ [name] ++ [kGitDirName]))
      (fun line n w => line = (gitdirMarker ++ pathText (paths.root ++ [kGitDirName, worktreesName, c]) ++ [10]).takeWhile (· ≠ 10) ∧
        Connected paths name branch c w₀ id (paths.stagingDir ++ [name]) (Unlinked paths name) n w) X := by
  refine endures_answer rfl (fun n w h => ?_) (fun n w e _ _ hmay => hmay.elim)
  obtain ⟨m, hm, hcont⟩ := h.host.2.2
  have hlink : m.isLnk = false := by
    rw [Node.isLnk, hcont]
  have hdir : m.isDir = false := by
    rw [Node.isDir, hcont]
  have hexec : exec (.openFile (paths.stagingDir ++ [name] ++ [kGitDirName]) .rdonly) w = (.ok ⟨m, .rdonly⟩, w) := by
    change ((w.host.openFile _ .rdonly).1, { w with host := (w.host.openFile _ .rdonly).2 }) = _
    rw [Host.openFile, atNode_some h.host.1.wf hm (fun _ => hlink)]
    simp
  rw [hexec]
  obtain ⟨contents, attrs⟩ := m
  cases hcont
  exact ⟨rfl, h.few, h.unhindered, h.env, h.git, h.store, h.host.1, h.host.2.1⟩

/-- The worktree moves to where the Workspace is going to be served. -/
theorem moveWorktree_endures (hc : Creatable paths name (cStr branch) w₀) (hch : Chosen paths branch c w₀) :
    Endures (tidied paths name (cStr branch)) (Connected paths name branch c w₀ id (paths.stagingDir ++ [name]) (Unlinked paths name))
      ((Io.call (.writeGitdir (paths.root ++ [kGitDirName, worktreesName, c]) (paths.mountPoint ++ [name] ++ [kGitDirName]))).orFail
        RegisterError.cannotUpdateGitdir)
      (fun _ => Mounted paths name branch c w₀ id) X := by
  refine endures_orFail (X := fun _ _ _ => False) (endures_call rfl (fun n w h => ?_) (fun n w e _ _ hmay => hmay.elim))
    (fun _ _ _ h => h.elim)
  obtain ⟨h', hok, hf, hfiles⟩ := @writeGitdir_ok w h.host.1.wf _ (paths.mountPoint ++ [name] ++ [kGitDirName])
    (admin_ordinary hc.grounds.registry.ordinary hch.spelled) h.host.1.admin h.host.1.files
  have hexec : exec (.writeGitdir (paths.root ++ [kGitDirName, worktreesName, c]) (paths.mountPoint ++ [name] ++ [kGitDirName])) w =
      _ := hok
  rw [hexec]
  obtain ⟨commit, hg⟩ := h.git
  refine ⟨h.few, h.unhindered, h.env, ⟨commit, ?_⟩, h.store, h.host.1.write hf hfiles, (hf.get_none ?_).mpr h.host.2⟩
  · have hold : w₀.git.worktrees.map (fun t => if t.admin = paths.root ++ [kGitDirName, worktreesName, c] then
        { t with path := (paths.mountPoint ++ [name] ++ [kGitDirName]).dropLast } else t) = w₀.git.worktrees := by
      refine (List.map_congr_left (fun t ht => ?_)).trans (List.map_id _)
      rw [if_neg (hch.newAdmin t ht)]
      rfl
    have hmap : w.git.worktrees.map (fun t => if t.admin = paths.root ++ [kGitDirName, worktreesName, c] then
        { t with path := (paths.mountPoint ++ [name] ++ [kGitDirName]).dropLast } else t) = w₀.git.worktrees ++
          [⟨paths.root ++ [kGitDirName, worktreesName, c], paths.mountPoint ++ [name], some (cStr branch)⟩] := by
      rw [hg]
      dsimp only
      rw [List.map_append, hold, List.map_singleton, if_pos rfl, List.dropLast_concat]
    change ({ w.git with worktrees := w.git.worktrees.map _ } : Git) = _
    rw [hmap, hg]
  · intro he
    have := @git_not_upper paths name [worktreesName, c, gitdirName] [kGitDirName]
    rw [he] at this
    exact this (by simp)

theorem Unlinked.unstage {h h' : Host} (hu : Unlinked paths name h) (hf : Frame (paths.stagingDir ++ [name] <+: ·) h h') :
    Unlinked paths name h' := (hf.get_none (stage_not_upper _)).mpr hu

/-- The worktree in staging goes, or stays behind. -/
theorem forgetStaging_endures (hc : Creatable paths name (cStr branch) w₀) (hname : Spelled name) :
    Endures F (Mounted paths name branch c w₀ id) (removeAll (paths.stagingDir ++ [name])).ignore
      (fun _ => Mounted paths name branch c w₀ id) X :=
  endures_ignore (endures_removeAll (fun n w h => ⟨h.host.1.wf, by rw [List.dropLast_concat]; exact h.host.1.staging⟩) (by simp)
    (stage_ordinary hc hname) (fun n w h' h hf => h.onHost ⟨h.host.1.unstage hf, h.host.2.unstage hf⟩) (fun n w h => h.less))

theorem populateIndex_endures (hc : Creatable paths name (cStr branch) w₀) (hch : Chosen paths branch c w₀) :
    Endures (tidied paths name (cStr branch)) (Mounted paths name branch c w₀ id)
      ((Io.call (.populateWorkspaceGitIndex (paths.root ++ [kGitDirName, worktreesName, c]))).orFail RegisterError.cannotPopulateIndex)
      (fun _ => Mounted paths name branch c w₀ id) X := by
  refine endures_orFail (X := fun _ _ _ => False) (endures_call rfl (fun n w h => ?_) (fun n w e _ _ hmay => hmay.elim))
    (fun _ _ _ h => h.elim)
  obtain ⟨h', hok, hf, hn⟩ := replaceFile_real h.host.1.wf (p := paths.root ++ [kGitDirName, worktreesName, c] ++ [indexName])
    (by simp) ((admin_ordinary hc.grounds.registry.ordinary hch.spelled).append (by decide))
    (by rw [List.dropLast_concat]; exact h.host.1.admin) (h.host.1.files indexName) []
  have hexec : exec (.populateWorkspaceGitIndex (paths.root ++ [kGitDirName, worktreesName, c])) w = (.ok (), { w with host := h' }) := by
    change ((w.host.replaceFile _ []).1, { w with host := (w.host.replaceFile _ []).2 }) = _
    rw [hok]
  rw [hexec]
  refine h.onHost ⟨h.host.1.write hf (h.host.1.files.replaced hf hn), (hf.get_none (fun he => ?_)).mpr h.host.2⟩
  have := @git_not_upper paths name [worktreesName, c, indexName] [kGitDirName]
  rw [he] at this
  exact this (by simp)

theorem exec_stat (p : HostPath) (w : World) : (exec (.stat p) w).1 = (w.host.stat p).1 := rfl

/-- What is said to be a regular file is there. -/
theorem isRegularFile_endures {A : Assertion} {p : HostPath} (hless : ∀ n w, A (n + 1) w → A n w) :
    Endures F A (isRegularFile p) (fun regular n w => A n w ∧ (regular = true → ∃ m, (w.host.stat p).1 = .ok m)) X := by
  refine endures_answer rfl (fun n w h => ?_) (fun n w e h _ _ => ⟨hless n w h, fun hr => by cases hr⟩)
  have hsame : (exec (.stat p) w).2 = w := exec_reads rfl w
  rw [hsame]
  refine ⟨h, fun hr => ?_⟩
  rw [exec_stat] at hr
  cases hs : (w.host.stat p).1 with
  | ok m => exact ⟨m, rfl⟩
  | error e => simp [hs] at hr

/-- A file that is there is flushed. -/
theorem flushFile_endures {A : Assertion} {p : HostPath} {x : RegisterError} (hp : p ≠ paths.upperDirectory name ++ [kGitDirName]) :
    Endures (tidied paths name (cStr branch)) (fun n w => A n w ∧ ∃ m, (w.host.stat p).1 = .ok m) ((Io.call (.fsyncFile p)).orFail x)
      (fun _ n w => A n w ∧ ∃ m, (w.host.stat p).1 = .ok m) X := by
  refine endures_orFail (X := fun _ _ _ => False) (endures_call rfl (fun n w h => ?_) (fun n w e _ _ hmay => absurd hmay hp))
    (fun _ _ _ h => h.elim)
  obtain ⟨m, hm⟩ := h.2
  have hexec : exec (.fsyncFile p) w = (.ok (), w) := by
    change ((w.host.fsyncFile p).1, { w with host := (w.host.fsyncFile p).2 }) = _
    rw [fsyncFile_of_stat hm]
  rw [hexec]
  exact ⟨h.1, m, hm⟩

/-- A directory that is there is flushed. -/
theorem flushDirectory_endures {A : Assertion} {p : HostPath} {x : RegisterError} (hp : p ≠ paths.upperDirectory name)
    (hok : ∀ n w, A n w → w.host.fsyncDirectory p = (.ok (), w.host)) :
    Endures (tidied paths name (cStr branch)) A ((Io.call (.fsyncDirectory p)).orFail x) (fun _ => A) X := by
  refine endures_orFail (X := fun _ _ _ => False) (endures_call rfl (fun n w h => ?_) (fun n w e _ _ hmay => absurd hmay hp))
    (fun _ _ _ h => h.elim)
  have hexec : exec (.fsyncDirectory p) w = (.ok (), w) := by
    change ((w.host.fsyncDirectory p).1, { w with host := (w.host.fsyncDirectory p).2 }) = _
    rw [hok n w h]
  rw [hexec]
  exact h

theorem nulFree_splitSlash {b : Bytes} (hb : (0 : UInt8) ∉ b) : NulFree (splitSlash b) := by
  have hmem : ∀ {p : RelPath} {s : Name}, s ∈ p → (0 : UInt8) ∈ s → (0 : UInt8) ∈ p.text := by
    intro p
    induction p with
    | nil =>
      intro s hs
      cases hs
    | cons r p ih =>
      intro s hs h0
      cases p with
      | nil =>
        rw [List.mem_singleton.mp hs] at h0
        exact h0
      | cons t p =>
        rw [RelPath.text, List.mem_append, List.mem_cons]
        rcases List.mem_cons.mp hs with rfl | hs
        · exact Or.inl h0
        · exact Or.inr (Or.inr (ih hs h0))
  intro s hs h0
  have := hmem hs h0
  rw [text_splitSlash] at this
  exact hb this

theorem flushLinkedWorktree_endures (hc : Creatable paths name (cStr branch) w₀) (hch : Chosen paths branch c w₀) :
    Endures (tidied paths name (cStr branch)) (Mounted paths name branch c w₀ id)
      (flushLinkedWorktree paths.root (paths.root ++ [kGitDirName, worktreesName, c]) branch)
      (fun _ => Mounted paths name branch c w₀ id) X := by
  have hgit : ∀ l l' : List Name, paths.root ++ kGitDirName :: l ≠ paths.upperDirectory name ++ l' := by
    intro l l' he
    exact @git_not_upper paths name l l' (by rw [he])
  have hadmin := @admin_ordinary paths _ hc.grounds.registry.ordinary hch.spelled
  refine endures_bind (P := fun _ => Mounted paths name branch c w₀ id) ?_ (fun _ => ?_)
  · refine endures_forEach (fun file _ => endures_bind (isRegularFile_endures (fun n w h => h.less)) (fun regular => ?_))
    refine endures_onlyIf (fun hr => ?_) (fun n w h _ => h.1)
    have hfile := hgit [worktreesName, c, file] [kGitDirName]
    exact (flushFile_endures (A := Mounted paths name branch c w₀ id) (fun he => hfile (by simpa using he))).mono
      (fun n w h => ⟨h.1, h.2 hr⟩) (fun _ n w h => h.1) (fun _ _ _ h => h)
  · refine endures_bind (P := fun _ => Mounted paths name branch c w₀ id)
      (flushDirectory_endures (fun he => hgit [worktreesName, c] [] (by simpa using he))
        (fun n w h => fsyncDirectory_dir h.host.1.wf hadmin h.host.1.admin)) (fun _ => ?_)
    refine endures_bind (P := fun _ => Mounted paths name branch c w₀ id) ?_ (fun _ => ?_)
    · have hparent : parentPath (paths.root ++ [kGitDirName, worktreesName, c]) = paths.root ++ [kGitDirName, worktreesName] := by
        simp [parentPath, List.dropLast_append_of_ne_nil]
      rw [syncParentDirectory, hparent]
      exact flushDirectory_endures (fun he => hgit [worktreesName] [] (by simpa using he))
        (fun n w h => fsyncDirectory_dir h.host.1.wf (hc.grounds.registry.ordinary.append (by decide)) h.host.1.registry)
    · refine endures_bind (isRegularFile_endures (fun n w h => h.less)) (fun regular => ?_)
      refine endures_onlyIf (fun hr => ?_) (fun n w h _ => h.1)
      have hne : splitSlash (cStr branch) ≠ [] := splitSlash_ne_nil _
      have hnul : NulFree (paths.root ++ [kGitDirName] ++ refsHeads ++ splitSlash (cStr branch)) := by
        have h0 : (0 : UInt8) ∉ cStr branch := fun h0 => by
          have := List.mem_takeWhile_imp h0
          simp at this
        have hroot := hc.grounds.registry.ordinary.2
        intro s hs
        rcases List.mem_append.mp hs with hs | hs
        · rcases List.mem_append.mp hs with hs | hs
          · rcases List.mem_append.mp hs with hs | hs
            · exact hroot s hs
            · exact (show Ordinary [kGitDirName] by decide).2 s hs
          · exact (show Ordinary refsHeads by decide).2 s hs
        · exact nulFree_splitSlash h0 s hs
      have hfile := hgit (refsHeads ++ splitSlash (cStr branch)) [kGitDirName]
      have hdir := hgit (refsHeads ++ (splitSlash (cStr branch)).dropLast) []
      refine endures_bind ((flushFile_endures (A := Mounted paths name branch c w₀ id) (fun he => hfile (by simpa using he))).mono
        (fun n w h => ⟨h.1, h.2 hr⟩) (fun _ _ _ h => h) (fun _ _ _ h => h)) (fun _ => ?_)
      refine (flushDirectory_endures (A := fun n w => Mounted paths name branch c w₀ id n w ∧
        ∃ m, (w.host.stat (paths.root ++ [kGitDirName] ++ refsHeads ++ splitSlash (cStr branch))).1 = .ok m) (fun he => ?_)
        (fun n w h => ?_)).mono (fun _ _ h => h) (fun _ _ _ h => h.1) (fun _ _ _ h => h)
      · rw [parentPath, List.dropLast_append_of_ne_nil hne] at he
        exact hdir (by simpa using he)
      · obtain ⟨m, hm⟩ := h.2
        exact fsyncDirectory_of_stat (by simp) hnul hm

/-- `register_linked_worktree` fails before Git has made the branch, and with the last failure; or the worktree is registered where the
Workspace is going to be served. -/
theorem registerLinkedWorktree_endures (hc : Creatable paths name (cStr branch) w₀) (hname : Spelled name) :
    Endures (tidied paths name (cStr branch)) (Waiting paths name branch w₀ id)
      (registerLinkedWorktree paths.root branch (paths.mountPoint ++ [name]) (paths.stagingDir ++ [name]))
      (fun _ n w => ∃ c, Chosen paths branch c w₀ ∧ Mounted paths name branch c w₀ id n w)
      (fun _ n w => n = 0 ∧ Waiting paths name branch w₀ id n w) := by
  refine endures_bind (clearStaging_endures hc hname) (fun _ => endures_bind (prepareStaging_endures hc) (fun _ => ?_))
  refine endures_bind branch_endures (fun branched => endures_bind (endures_refuse (fun n w h hok => h.2 (not_not.mp hok))
    (fun n w h hne => h.1 hne)) (fun _ => endures_of_fact (fun n w h => h.1) (fun hnew => ?_)))
  refine Endures.mono ?_ (fun n w h => h.2) (fun _ _ _ h => h) (fun _ _ _ h => h)
  refine endures_bind (worktreeAdd_endures hc hname hnew) (fun added => ?_)
  refine endures_bind (P := fun _ n w => ∃ c, Chosen paths branch c w₀ ∧
      Connected paths name branch c w₀ id (paths.stagingDir ++ [name]) (Staged paths name c) n w)
    (endures_refuse (fun n w h _ => h.2) (fun n w h hne => absurd h.1 hne)) (fun _ => endures_exists (fun c => ?_))
  refine endures_of_fact (fun n w h => h.1) (fun hch => ?_)
  refine Endures.mono ?_ (fun n w h => h.2) (fun _ n w h => ⟨c, hch, h⟩) (fun _ _ _ h => h)
  refine endures_bind readGitFile_endures (fun line => endures_of_fact (fun n w h => h.1) (fun hline => ?_))
  have hspelled : ∀ s ∈ paths.root ++ [kGitDirName, worktreesName, c], (10 : UInt8) ∉ s := by
    intro s hs
    rcases List.mem_append.mp hs with hs | hs
    · exact hc.grounds.line s hs
    · simp only [List.mem_cons, List.not_mem_nil, or_false] at hs
      rcases hs with rfl | rfl | rfl
      · decide
      · decide
      · exact hch.spelled.2
  have hadmin := @admin_ordinary paths _ hc.grounds.registry.ordinary hch.spelled
  rw [gitFile_line hspelled] at hline
  subst hline
  rw [findText_marker]
  dsimp only
  have hdrop : List.drop (0 + 8) (gitdirMarker ++ pathText (paths.root ++ [kGitDirName, worktreesName, c])) =
      pathText (paths.root ++ [kGitDirName, worktreesName, c]) := rfl
  rw [hdrop, hostPathOf_pathText hadmin]
  refine Endures.mono ?_ (fun n w h => h.2) (fun _ _ _ h => h) (fun _ _ _ h => h)
  refine endures_bind (moveWorktree_endures hc hch) (fun _ => endures_bind (forgetStaging_endures hc hname) (fun _ => ?_))
  refine endures_bind (populateIndex_endures hc hch) (fun _ => endures_bind (flushLinkedWorktree_endures hc hch) (fun _ => ?_))
  exact endures_pure (fun _ _ h => h)

end register

/-! ## The end of a creation -/

section finish

variable {id : Nat} {c : Name}

/-- The worktree is registered, whatever the upper tree holds. -/
abbrev Served (paths : ProjectPaths) (name branch c : Name) (w₀ : World) (id : Nat) : Assertion :=
  Connected paths name branch c w₀ id (paths.mountPoint ++ [name]) (fun _ => True)

theorem undo_endures {A : Assertion} {α : Type} {Q : α → Assertion} (hc : Creatable paths name (cStr branch) w₀)
    (hname : Spelled name) (hch : Chosen paths branch c w₀) (hA : ∀ n w, A n w → n = 0 ∧ Served paths name branch c w₀ id n w)
    (e : LifecycleError) :
    Endures F A (undoCreation paths name branch id e : Fallible LifecycleError α) Q (fun _ _ => NoResidue paths name w₀) := by
  refine endures_alone (e := e) (fun n w h => (hA n w h).1) (fun w h => ?_)
  have hs := (hA 0 w h).2
  exact run_undoCreation hc hname hch.newBranch hs.git hs.host.1 hs.store e

/-- The `.git` file of the upper tree. -/
theorem writeGitFile_endures (hc : Creatable paths name (cStr branch) w₀) (hname : Spelled name) (gitFile : Bytes) :
    Endures F (Mounted paths name branch c w₀ id) (writeFileDurably (paths.upperDirectory name ++ [kGitDirName]) gitFile)
      (fun _ => Served paths name branch c w₀ id) (fun _ n w => n = 0 ∧ Served paths name branch c w₀ id n w) := by
  have hupper := upper_ordinary hc.grounds.registry.ordinary hname
  have hparent : parentPath (paths.upperDirectory name ++ [kGitDirName]) = paths.upperDirectory name := by
    rw [parentPath, List.dropLast_concat]
  have hserved : ∀ {n w}, Mounted paths name branch c w₀ id n w → Served paths name branch c w₀ id n w :=
    fun h => ⟨h.few, h.unhindered, h.env, h.git, h.store, h.host.1, trivial⟩
  have hgit : ∀ l l' : List Name, paths.root ++ kGitDirName :: l ≠ paths.upperDirectory name ++ l' := by
    intro l l' he
    exact @git_not_upper paths name l l' (by rw [he])
  refine endures_bind (P := fun _ n w => Served paths name branch c w₀ id n w ∧
    ∃ m, w.host.tree.get (paths.upperDirectory name ++ [kGitDirName]) = some m ∧ m.contents = .file gitFile) ?_ (fun _ => ?_)
  · refine endures_call rfl (fun n w h => ?_) (fun n w e h _ _ => ⟨h.last, hserved h.less⟩)
    obtain ⟨h', hok, hf, hn⟩ := replaceFile_real h.host.1.wf (p := paths.upperDirectory name ++ [kGitDirName]) (by simp)
      (hupper.append (by decide)) (by rw [List.dropLast_concat]; exact h.host.1.upper)
      (fun n hn => by rw [h.host.2] at hn; cases hn) gitFile
    have hexec : exec (.replaceFile (paths.upperDirectory name ++ [kGitDirName]) gitFile) w = (.ok (), { w with host := h' }) := by
      change ((w.host.replaceFile _ gitFile).1, { w with host := (w.host.replaceFile _ gitFile).2 }) = _
      rw [hok]
    rw [hexec]
    have hfiles : HoldsFiles h'.tree (paths.root ++ [kGitDirName, worktreesName, c]) :=
      h.host.1.files.frame hf (fun x he => hgit [worktreesName, c, x] [kGitDirName] (by simpa using he))
    refine ⟨h.onHost ⟨h.host.1.frame hf (hgit [] _) ?_ (hgit [worktreesName] _) (hgit [worktreesName, c] _) hfiles ?_, trivial⟩, hn⟩
    · rw [stagingDir_eq, upperDirectory_eq]
      intro he
      have := congrArg List.length he
      simp at this
    · intro he
      have := congrArg List.length he
      simp at this
  · refine endures_bind (P := fun _ => Served paths name branch c w₀ id) ?_ (fun _ => ?_)
    · refine endures_call rfl (fun n w h => ?_) (fun n w e h _ _ => ⟨h.1.last, h.1.less⟩)
      obtain ⟨m, hm, hcont⟩ := h.2
      have hexec : exec (.fsyncFile (paths.upperDirectory name ++ [kGitDirName])) w = (.ok (), w) := by
        change ((w.host.fsyncFile _).1, { w with host := (w.host.fsyncFile _).2 }) = _
        rw [Host.fsyncFile, atNode_some h.1.host.1.wf hm (fun _ => by rw [Node.isLnk, hcont])]
      rw [hexec]
      exact h.1
    · rw [syncParentDirectory, hparent]
      refine endures_call rfl (fun n w h => ?_) (fun n w e h _ _ => ⟨h.last, h.less⟩)
      have hexec : exec (.fsyncDirectory (paths.upperDirectory name)) w = (.ok (), w) := by
        change ((w.host.fsyncDirectory _).1, { w with host := (w.host.fsyncDirectory _).2 }) = _
        rw [fsyncDirectory_dir h.host.1.wf hupper h.host.1.upper]
      rw [hexec]
      exact h

theorem connectWorktree_endures (hc : Creatable paths name (cStr branch) w₀) (hname : Spelled name) :
    Endures (tidied paths name (cStr branch)) (Waiting paths name branch w₀ id) (connectWorktree paths name branch id)
      (fun _ n w => ∃ c, Chosen paths branch c w₀ ∧ Served paths name branch c w₀ id n w)
      (fun _ _ => NoResidue paths name w₀) := by
  refine endures_bind (P := fun _ n w => ∃ c, Chosen paths branch c w₀ ∧ Mounted paths name branch c w₀ id n w) ?_
    (fun gitFile => endures_exists (fun c => endures_of_fact (fun n w h => h.1) (fun hch => ?_)))
  · refine endures_orElseDo (registerLinkedWorktree_endures hc hname) (fun e => ?_)
    refine endures_alone (e := .register e) (fun n w h => h.1) (fun w h => ?_)
    have hgit := h.2.git
    exact run_removeUpper hc hname h.2.host.wf h.2.host.upper (by rw [hgit]) (by rw [hgit]) h.2.store _
  · refine Endures.mono ?_ (fun n w h => h.2) (fun _ n w h => ⟨c, hch, h⟩) (fun _ _ _ h => h)
    refine endures_bind (P := fun _ => Mounted paths name branch c w₀ id) ?_ (fun _ => ?_)
    · refine endures_orElseDo (stage_injected _) (fun x => undo_endures hc hname hch (fun n w h => ⟨h.1, ?_⟩) _)
      exact ⟨h.2.few, h.2.unhindered, h.2.env, h.2.git, h.2.store, h.2.host.1, trivial⟩
    · exact endures_orElseDo (writeGitFile_endures hc hname gitFile) (fun x => undo_endures hc hname hch (fun n w h => h) _)

theorem activate_endures (hc : Creatable paths name (cStr branch) w₀) (hname : Spelled name) (hch : Chosen paths branch c w₀)
    {record : WorkspaceRecord} (hr : record.name = name) (hb : record.branch = branch) :
    Endures (tidied paths name (cStr branch)) (Served paths name branch c w₀ id) (activate paths record id) (fun _ _ _ => True)
      (fun _ _ => NoResidue paths name w₀) := by
  subst hr hb
  refine endures_bind (P := fun _ => Served paths record.name record.branch c w₀ id) ?_ (fun _ => ?_)
  · exact endures_orElseDo (stage_injected _) (fun x => undo_endures hc hname hch (fun n w h => h) _)
  · refine endures_bind (P := fun _ _ _ => True) ?_ (fun _ => ?_)
    · refine endures_orElseDo (X := fun _ n w => n = 0 ∧ Served paths record.name record.branch c w₀ id n w) ?_
        (fun x => undo_endures hc hname hch (fun n w h => h) _)
      exact endures_call rfl (fun n w h => trivial) (fun n w e h _ _ => ⟨h.last, h.less⟩)
    · refine endures_orElseDo (X := fun _ _ _ => False) ?_ (fun _ _ _ h => h.elim)
      exact endures_call rfl (fun n w h => trivial) (fun n w e _ _ hmay => hmay.elim)

theorem buildWorkspace_endures (hc : Creatable paths name (cStr branch) w₀) (hname : Spelled name) :
    Endures (tidied paths name (cStr branch)) (Fresh (cStr branch) w₀) (buildWorkspace paths name branch) (fun _ _ _ => True)
      (fun _ _ => NoResidue paths name w₀) := by
  refine endures_bind stage_clock (fun started => endures_bind (journalCreation_endures hc branch) (fun id => ?_))
  refine endures_bind stage_clock (fun createdAt => endures_bind (saveCreating_endures id _) (fun _ => ?_))
  refine endures_bind (createStorage_endures hc hname id) (fun _ => endures_bind (connectWorktree_endures hc hname) (fun _ => ?_))
  refine endures_exists (fun c => endures_of_fact (fun n w h => h.1) (fun hch => ?_))
  refine Endures.mono ?_ (fun n w h => h.2) (fun _ _ _ h => h) (fun _ _ _ h => h)
  refine endures_bind stage_clock (fun now => endures_bind (activate_endures hc hname hch rfl rfl) (fun _ => ?_))
  refine endures_bind (P := fun _ _ _ => True) ?_ (fun _ => endures_pure (fun _ _ _ => trivial))
  refine endures_bind (P := fun _ _ _ => True) ?_ (fun _ => endures_pure (fun _ _ _ => trivial))
  exact endures_answer rfl (fun _ _ _ => trivial) (fun _ _ _ _ _ _ => trivial)

/-- The checks that come first change nothing. -/
theorem createWorkspace_endures {m : Manager} {requestedBranch : Bytes}
    (hc : Creatable m.paths name (cStr (requestedOr name requestedBranch)) w₀) :
    Endures (tidied m.paths name (cStr (requestedOr name requestedBranch))) (Fresh (cStr (requestedOr name requestedBranch)) w₀)
      (createWorkspace m name requestedBranch) (fun _ _ _ => True) (fun _ _ => NoResidue m.paths name w₀) := by
  refine endures_bind (P := fun _ n w => Fresh (cStr (requestedOr name requestedBranch)) w₀ n w ∧
    isValidWorkspaceName name = true) ?_ (fun _ => endures_of_fact (fun n w h => h.2) (fun hvalid => ?_))
  · exact endures_refuse (fun n w h hv => ⟨h, by simpa using hv⟩) (fun n w h _ => noResidue_fresh hc h)
  · refine Endures.mono ?_ (fun n w h => h.1) (fun _ _ _ h => h) (fun _ _ _ h => h)
    refine endures_bind (P := fun _ => Fresh (cStr (requestedOr name requestedBranch)) w₀) ?_ (fun _ => ?_)
    · exact endures_refuse (fun n w h _ => h) (fun n w h _ => noResidue_fresh hc h)
    · refine endures_bind (P := fun _ => Fresh (cStr (requestedOr name requestedBranch)) w₀) ?_ (fun existing => ?_)
      · exact endures_answer rfl (fun _ _ h => h) (fun _ _ _ h _ _ => h.less)
      · refine endures_bind (P := fun _ => Fresh (cStr (requestedOr name requestedBranch)) w₀) ?_ (fun _ => ?_)
        · exact endures_refuse (fun n w h _ => h) (fun n w h _ => noResidue_fresh hc h)
        · exact buildWorkspace_endures hc (spelled_of_valid hvalid)

end finish

end stages

end CreationAux

namespace ResidueWitness

/-- A configured Project at `/p`, mounted at `/m`. -/
def world : World where
  host := {
    tree := ⟨[([[112]], ⟨.dir, ⟨3, 493, 0, 0, 0⟩⟩), ([[112], kGitDirName], ⟨.dir, ⟨4, 493, 0, 0, 0⟩⟩),
      ([[112], kTribiosDirName], ⟨.dir, ⟨5, 493, 0, 0, 0⟩⟩), ([[112], kTribiosDirName, baseName], ⟨.dir, ⟨6, 493, 0, 0, 0⟩⟩),
      ([[112], kTribiosDirName, workspacesName], ⟨.dir, ⟨7, 493, 0, 0, 0⟩⟩), ([[109]], ⟨.dir, ⟨8, 493, 0, 0, 0⟩⟩)]⟩
    nextIno := 9, now := 5, umask := 18 }
  store := { committed := { project := some ⟨[[112]], [[109]]⟩ } }
  git := { branches := [([109], 7)], mainHead := some [109], headCommit := some 7 }

def root : HostPath := [[112]]
def manager : Manager := { paths := ⟨root, [[109]]⟩ }
def started : World := ((startDaemon root).run exec world).2

theorem starts : (startDaemon root).run exec world = ((.up manager, none), started) := Prod.ext rfl rfl

theorem reach_started : Workers.Reach (lifecycle root (fun _ => hosts anyFaults) (hosts anyFaults) (fun _ => Eq))
    ⟨.idle .down, [], world⟩ ⟨.idle (.up manager), [], started⟩ := by
  have hrun := Workers.runs_main exec (Y := lifecycle root (fun _ => hosts anyFaults) (hosts anyFaults) (fun _ => Eq))
    (m := .down) (fun c w => hosts_exec _ c w) (startDaemon root) [] world
  rw [starts] at hrun
  exact (Workers.Reach.refl.start rfl).runs hrun

/-- The calls of `ws.create b` up to the creation of the Workspace's directory. -/
def creating : DaemonProgram × World := ((LifecycleRequest.create [98] []).serve manager).advance exec 12 started

theorem creates_directory : ∃ k, creating.1 = .call (.ensureDirectory [[112], kTribiosDirName, workspacesName, [98]]) k ∧
    ¬NoResidue manager.paths [98] started ((k (.error .ENOSPC)).run exec creating.2).2 ∧
    ((k (.error .ENOSPC)).run exec creating.2).1 = (.up manager, none) := by
  refine ⟨_, rfl, fun h => ?_, rfl⟩
  have hoperations := h.operations
  revert hoperations
  decide +kernel

theorem started_wf : started.host.tree.WF := by
  refine ⟨PathMap.rooted_of_entries (by decide +kernel), fun p hp => ?_⟩
  obtain ⟨n, hn⟩ := Option.isSome_iff_exists.mp hp
  have hall : ∀ e ∈ started.host.tree.entries, Ordinary e.1 := by decide +kernel
  exact hall (p, n) (PathMap.mem_entries_of_get hn)

theorem started_creatable : Creatable manager.paths [98] [98] started where
  grounds := {
    wf := started_wf
    registry := ⟨by decide +kernel, by decide +kernel, fun n hn => by
      have hnone : started.host.tree.get (manager.paths.root ++ [kGitDirName, worktreesName]) = none := by decide +kernel
      rw [hnone] at hn
      cases hn⟩
    line := by decide +kernel
    workspaces := by decide +kernel
    staging := by decide +kernel }
  ids := by decide +kernel
  record := fun r hr => by
    have hnone : started.store.visible.loadWorkspaceRecord [98] = none := by decide +kernel
    rw [hnone] at hr
    cases hr
  upper := by decide +kernel
  directory := fun n hn => by
    have hnone : started.host.tree.get (manager.paths.workspacesDir ++ [[98]]) = none := by decide +kernel
    rw [hnone] at hn
    cases hn
  unmounted := by decide +kernel
  unstaged := by decide +kernel
  admins := fun t ht => by
    have hnone : started.git.worktrees = [] := by decide +kernel
    rw [hnone] at ht
    cases ht
  heads := fun _ => by decide +kernel

end ResidueWitness

end TribiosVfs

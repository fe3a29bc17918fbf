import TribiosVfs.Calls

/-!
# What a call leaves as it was

The frame of each class of calls: a reading call leaves the world, a call of the host leaves the store, a call of the store
leaves the host.
-/

namespace TribiosVfs

section host

variable {α : Type} (h : Host)

/-- A call that only looks at the node it finds leaves the host. -/
theorem Host.atNode_same {follow : Bool} {p : HostPath} {f : HostPath → Node → Except Errno α × Host}
    (hf : ∀ q n, (f q n).2 = h) : (h.atNode follow p f).2 = h := by
  unfold Host.atNode Host.at
  cases h.resolve follow p with
  | error e => rfl
  | ok q =>
    cases hn : nodeAt h.tree q with
    | none => simp only [hn]
    | some n => simpa only [hn] using hf q n

theorem Host.lstat_same (p : HostPath) : (h.lstat p).2 = h := h.atNode_same (fun _ _ => rfl)
theorem Host.stat_same (p : HostPath) : (h.stat p).2 = h := h.atNode_same (fun _ _ => rfl)

theorem Host.openDirectory_same (p : HostPath) : (h.openDirectory p).2 = h :=
  h.atNode_same (fun q n => by split <;> rfl)

theorem Host.readSymlink_same (p : HostPath) : (h.readSymlink p).2 = h :=
  h.atNode_same (fun q n => by split <;> rfl)

theorem Host.openFile_same (p : HostPath) (access : AccessMode) : (h.openFile p access).2 = h :=
  h.atNode_same (fun q n => by split <;> rfl)

theorem Host.fsyncFile_same (p : HostPath) : (h.fsyncFile p).2 = h := h.atNode_same (fun _ _ => rfl)
theorem Host.fsyncDirectory_same (p : HostPath) : (h.fsyncDirectory p).2 = h := h.atNode_same (fun _ _ => rfl)

theorem Host.listTree_same (p : HostPath) : (h.listTree p).2 = h := by
  unfold Host.listTree
  split <;> rfl

end host

/-- A reading call leaves the world. -/
theorem exec_reads {β : Type} {c : Call β} (hc : c.reads = true) (w : World) : (exec c w).2 = w := by
  cases c <;> first
    | (cases hc; done)
    | rfl
    | simp [exec, World.onHost, Host.lstat_same, Host.stat_same, Host.openDirectory_same, Host.readSymlink_same,
        Host.openFile_same, Host.fsyncFile_same, Host.fsyncDirectory_same, Host.listTree_same]

theorem World.gitWorktreeRemove_store (w : World) (path : HostPath) : (w.gitWorktreeRemove path).2.store = w.store := by
  unfold World.gitWorktreeRemove
  split <;> rfl

theorem World.gitBranchDelete_store (w : World) (branch : Name) : (w.gitBranchDelete branch).2.store = w.store := by
  unfold World.gitBranchDelete
  split
  · rfl
  · split <;> rfl

theorem World.gitBranch_store (w : World) (projectRoot : HostPath) (branch : Name) :
    (w.gitBranch projectRoot branch).2.store = w.store := by
  unfold World.gitBranch
  split
  · rfl
  · split <;> rfl

theorem World.gitWorktreeAdd_store (w : World) (projectRoot : HostPath) (branch : Name) (path : HostPath) :
    (w.gitWorktreeAdd projectRoot branch path).2.store = w.store := by
  unfold World.gitWorktreeAdd
  dsimp only
  split <;> rfl

theorem World.writeGitdir_store (w : World) (admin gitFile : HostPath) : (w.writeGitdir admin gitFile).2.store = w.store := by
  unfold World.writeGitdir
  split <;> rfl

/-- A call that is not the store's leaves the store. -/
theorem exec_store {β : Type} {c : Call β} (hc : c.isStore = false) (w : World) : (exec c w).2.store = w.store := by
  cases c <;> first
    | (cases hc; done)
    | rfl
    | exact World.gitBranch_store w _ _
    | exact World.gitWorktreeAdd_store w _ _ _
    | exact World.writeGitdir_store w _ _
    | exact World.gitWorktreeRemove_store w _
    | exact World.gitBranchDelete_store w _

/-- A call that is not the store's leaves the store, whether it fails or not. -/
theorem step_store {F : Faults} {β : Type} {c : Call β} {w w' : World} {r : Except Errno β} (hc : c.isStore = false)
    (h : (hosts F).step c w r w') : w'.store = w.store := by
  rcases h with h | ⟨-, -, h⟩
  · rw [← exec_store hc w, h]
  · cases h with
    | error => rfl
    | copy => rfl
    | write p data offset n => exact exec_store (c := .pwrite p (data.take n) offset) rfl w
    | finish => cases hc

/-- The calls a failure of which has no effect. -/
def Call.failsWhole : {β : Type} → Call β → Bool
  | _, .copyFile _ _ => false
  | _, .pwrite _ _ _ => false
  | _, .finishRecoveryOperation _ => false
  | _, _ => true

/-- Such a call is answered as nothing hinders it, or fails without effect. -/
theorem step_whole {F : Faults} {β : Type} {c : Call β} {w w' : World} {r : Except Errno β} (hc : c.failsWhole = true)
    (h : (hosts F).step c w r w') : exec c w = (r, w') ∨ (F.may c w ∧ (∃ e, r = .error e) ∧ w' = w) := by
  rcases h with h | ⟨-, hmay, h⟩
  · exact Or.inl h
  · cases h with
    | error => exact Or.inr ⟨hmay, ⟨_, rfl⟩, rfl⟩
    | copy => cases hc
    | write => cases hc
    | finish => cases hc

end TribiosVfs

import TribiosVfs.Lemmas.RecordContracts
import TribiosVfs.Lemmas.WorktreeRuns

/-!
# A creation that is cut short costs no branch

`creation_spares_branches`: the daemon serves a `ws.create` and stops anywhere; recovery then deletes no branch that was there
before the request, as long as `Spared` held before it: the requested branch is not there yet or stays checked out, and no
creation still pending names a branch that is there.

The journal record of a creation holds the name of its branch and not whether the creation made it, so recovery deletes whatever
branch it names: `CreationWitness.branch_lost`.
-/

namespace TribiosVfs

/-- The branch that recovery takes a creation's journal record to have made. -/
def RecoveryOperation.branch (operation : RecoveryOperation) : Name := cStr (RelPath.text operation.target)

/-- The rows the connection sees, and those that a stop leaves. -/
def Store.Holds (s : Store) (t : Tables) : Prop := t = s.visible ∨ t = s.committed

/-- A Workspace of the name is being removed, or a lifecycle record of it is pending. -/
def World.Unsettled (w : World) (jobs : List (Reclamation × Prog Call Errno Unit)) (name : Name) : Prop :=
  (∃ e ∈ jobs, e.1.name = name) ∨
    ∃ t, w.store.Holds t ∧ ∃ o ∈ t.operations, o.kind.lifecycle = true ∧ o.workspace = name

/-- The branch is not there, or is the one checked out in the main worktree. -/
def Git.Safe (g : Git) (branch : Name) : Prop := (∀ b ∈ g.branches, b.1 ≠ branch) ∨ g.mainHead = some branch

/-- What a creation of `name` on `branch` needs to be cut short at no cost: the branch is not there, or is checked out in the main
worktree or in a linked one whose directory has not the name of the new Workspace or of one that is unsettled; and every pending
creation is of an active Workspace that is not being removed, or names such a branch. -/
structure Spared (w : World) (jobs : List (Reclamation × Prog Call Errno Unit)) (name branch : Name) : Prop where
  requested : w.git.Safe branch ∨ ∃ t ∈ w.git.worktrees, t.head = some branch ∧
    ∀ n, n = name ∨ w.Unsettled jobs n → t.path.getLast? ≠ some n
  pending : ∀ t, w.store.Holds t → ∀ o ∈ t.operations, o.kind = .workspaceCreate →
    (t.HasState o.workspace .active ∧ ∀ e ∈ jobs, e.1.name ≠ o.workspace) ∨ w.git.Safe o.branch ∨ o.branch = branch

/-- Any call may fail but the read of a Workspace record. -/
def recordsRead : Faults := ⟨fun c _ => c.loadsRecord = none⟩

/-- What happens around the lifecycle while nobody else uses Git. -/
def AroundGit (w w' : World) : Prop := Around w w' ∧ w'.git = w.git

namespace BranchAux

open Tables

/-! ## What is at stake -/

/-- The branches before the request, and what protects them. -/
structure Stakes where
  branches : List (Name × Nat)
  mainHead : Option Name
  requested : Name
  doomed : Name → Prop
  /-- The requested branch is there, and checked out in a linked worktree. -/
  linked : Prop

namespace Stakes

variable (k : Stakes)

/-- Deleting the branch costs nothing. -/
def Spares (branch : Name) : Prop :=
  (∀ b ∈ k.branches, b.1 ≠ branch) ∨ k.mainHead = some branch ∨ (branch = k.requested ∧ k.linked)

/-- The branches are there, and what protects them too. -/
structure Guarded (g : Git) : Prop where
  branches : ∀ b ∈ k.branches, b ∈ g.branches
  mainHead : g.mainHead = k.mainHead
  linked : k.linked → ∃ t ∈ g.worktrees, t.head = some k.requested ∧ ∀ n, k.doomed n → t.path.getLast? ≠ some n

/-- Every pending creation can be rolled back, or is of an active Workspace that keeps its state. -/
structure Settled (X : Name → Prop) (t : Tables) : Prop where
  keyed : t.Keyed
  creates : ∀ o ∈ t.operations, o.kind = .workspaceCreate → (t.HasState o.workspace .active ∧ X o.workspace) ∨ k.Spares o.branch
  names : ∀ o ∈ t.operations, o.kind.lifecycle = true → k.doomed o.workspace

/-- The calls that cost nothing while the names of `X` keep their states. -/
def Lets (X : Name → Prop) : {β : Type} → Call β → Prop
  | _, .gitBranchDelete branch => k.Spares branch
  | _, .gitWorktreeRemove path => ∃ n, k.doomed n ∧ path.getLast? = some n
  | _, .writeGitdir _ _ => ¬k.linked
  | _, .beginRecoveryOperation o => (o.kind = .workspaceCreate → k.Spares o.branch) ∧
      (o.kind.lifecycle = true → k.doomed o.workspace)
  | _, .saveWorkspaceRecord record => ¬X record.name
  | _, .setWorkspaceState name _ => ¬X name
  | _, _ => True

end Stakes

variable {k : Stakes} {X X' : Name → Prop}

/-! ## Git -/

theorem guarded_delete {w : World} (h : k.Guarded w.git) {branch : Name} (hb : k.Spares branch) :
    k.Guarded (w.gitBranchDelete branch).2.git := by
  unfold World.gitBranchDelete
  split
  · exact h
  · split
    · exact h
    · rename_i hno
      refine ⟨fun b hmem => List.mem_filter.mpr ⟨h.branches b hmem, ?_⟩, h.mainHead, h.linked⟩
      rcases hb with hb | hb | ⟨rfl, hl⟩
      · simpa using hb b hmem
      · exact absurd (Or.inl (h.mainHead.trans hb)) hno
      · obtain ⟨t, ht, hhead, -⟩ := h.linked hl
        exact absurd (Or.inr ⟨t, ht, hhead⟩) hno

theorem guarded_remove {w : World} (h : k.Guarded w.git) {path : HostPath} {n : Name} (hn : k.doomed n)
    (hp : path.getLast? = some n) : k.Guarded (w.gitWorktreeRemove path).2.git := by
  unfold World.gitWorktreeRemove
  split
  · exact h
  · rename_i u hu
    have hpath : u.path = path := by simpa using List.find?_some hu
    refine ⟨h.branches, h.mainHead, fun hl => ?_⟩
    obtain ⟨t, ht, hhead, hne⟩ := h.linked hl
    refine ⟨t, List.mem_filter.mpr ⟨ht, ?_⟩, hhead, hne⟩
    have : t ≠ u := by
      rintro rfl
      exact hne n hn (hpath ▸ hp)
    simpa using this

theorem guarded_branch {w : World} (h : k.Guarded w.git) (projectRoot : HostPath) (branch : Name) :
    k.Guarded (w.gitBranch projectRoot branch).2.git := by
  rcases gitBranch_cases w projectRoot branch with he | ⟨commit, he, -⟩
  · rw [he]
    exact h
  · rw [he]
    exact ⟨fun b hb => List.mem_append_left _ (h.branches b hb), h.mainHead, h.linked⟩

theorem guarded_add {w : World} (h : k.Guarded w.git) (projectRoot : HostPath) (branch : Name) (path : HostPath) :
    k.Guarded (w.gitWorktreeAdd projectRoot branch path).2.git := by
  unfold World.gitWorktreeAdd
  dsimp only
  split
  · exact h
  · refine ⟨h.branches, h.mainHead, fun hl => ?_⟩
    obtain ⟨t, ht, hrest⟩ := h.linked hl
    exact ⟨t, List.mem_append_left _ ht, hrest⟩

theorem guarded_writeGitdir {w : World} (h : k.Guarded w.git) (hl : ¬k.linked) (admin gitFile : HostPath) :
    k.Guarded (w.writeGitdir admin gitFile).2.git := by
  unfold World.writeGitdir
  split
  · exact h
  · exact ⟨h.branches, h.mainHead, fun hl' => absurd hl' hl⟩

theorem exec_guarded {β : Type} {c : Call β} (hc : k.Lets X c) {w : World} (h : k.Guarded w.git) :
    k.Guarded (exec c w).2.git := by
  cases c
  case gitBranchDelete branch => exact guarded_delete h hc
  case gitWorktreeRemove path =>
    obtain ⟨n, hn, hp⟩ := hc
    exact guarded_remove h hn hp
  case gitBranch projectRoot branch => exact guarded_branch h projectRoot branch
  case gitWorktreeAdd projectRoot branch path => exact guarded_add h projectRoot branch path
  case writeGitdir admin gitFile => exact guarded_writeGitdir h hc admin gitFile
  all_goals exact h

theorem step_guarded {F : Faults} {β : Type} {c : Call β} (hc : k.Lets X c) {w w' : World} {r : Except Errno β}
    (hs : (hosts F).step c w r w') (h : k.Guarded w.git) : k.Guarded w'.git := by
  rcases hs with hs | ⟨-, -, hs⟩
  · rw [show w' = (exec c w).2 by rw [hs]]
    exact exec_guarded hc h
  · cases hs with
    | error => exact h
    | copy => exact h
    | write p data offset n => exact h
    | finish => exact h

/-! ## The journal -/

/-- The names that count keep their states, and the journal gets no record. -/
theorem settled_of {t t' : Tables} (h : k.Settled X t) (hkeyed : t'.Keyed)
    (hrows : ∀ o ∈ t'.operations, ∃ o' ∈ t.operations, o = { o' with phase := o.phase })
    (hst : ∀ n, X n → t.HasState n .active → t'.HasState n .active) : k.Settled X t' := by
  refine ⟨hkeyed, fun o ho hk => ?_, fun o ho hk => ?_⟩
  · obtain ⟨o', ho', he⟩ := hrows o ho
    rw [he] at hk ⊢
    exact (h.creates o' ho' hk).imp (fun ha => ⟨hst _ ha.2 ha.1, ha.2⟩) id
  · obtain ⟨o', ho', he⟩ := hrows o ho
    rw [he] at hk ⊢
    exact h.names o' ho' hk

theorem settled_same {t t' : Tables} (h : k.Settled X t) (hs : Same t t') : k.Settled X t' :=
  settled_of h (hs.keyed h.keyed) hs.rows (fun n _ ha => (hs.states n _).mpr ha)

theorem settled_abandon {t : Tables} (h : k.Settled X t) (id : Nat) : k.Settled X (t.abandonRecoveryOperation id) :=
  settled_of h (h.keyed.abandon id) (fun o ho => ⟨o, List.mem_of_mem_filter ho, rfl⟩) (fun _ _ ha => ha)

theorem settled_settles {t t' : Tables} {id : Nat} (h : k.Settled X t) (hs : Settles id t t') : k.Settled X t' := by
  rcases hs with hs | ⟨t₁, hs, rfl⟩
  · exact settled_same h hs
  · exact settled_abandon (settled_same h hs) id

theorem settled_save {t : Tables} (h : k.Settled X t) {record : WorkspaceRecord} (hn : ¬X record.name) :
    k.Settled X (t.saveWorkspaceRecord record) :=
  settled_of h (h.keyed.save record) (fun o ho => ⟨o, ho, rfl⟩) (fun _ hx ha => (hasState_save ..).mpr (Or.inr ⟨fun he => hn (he ▸ hx), ha⟩))

theorem settled_setState {t : Tables} (h : k.Settled X t) {name : Name} (hn : ¬X name) (state : WorkspaceState) :
    k.Settled X (t.setWorkspaceState name state) :=
  settled_of h (h.keyed.setState name state) (fun o ho => ⟨o, ho, rfl⟩) (fun _ hx ha => (hasState_setState ..).mpr (Or.inl ⟨fun he => hn (he ▸ hx), ha⟩))

/-- The branch of a journal record as it is stored. -/
theorem branch_bound (o : RecoveryOperation) (id : Nat) (path : RelPath) :
    RecoveryOperation.branch { o with id := id, path := path, target := bindText o.target } = o.branch := by
  simp only [RecoveryOperation.branch, bindText, text_ofText, cStr_cStr]

theorem settled_begin {t : Tables} (h : k.Settled X t) {o : RecoveryOperation} (hc : o.kind = .workspaceCreate → k.Spares o.branch)
    (hn : o.kind.lifecycle = true → k.doomed o.workspace) : k.Settled X (t.beginRecoveryOperation o) := by
  refine ⟨h.keyed.begin o, fun o' ho hk => ?_, fun o' ho hk => ?_⟩
  · rcases List.mem_append.mp ho with ho | ho
    · exact h.creates o' ho hk
    · rw [List.mem_singleton.mp ho] at hk ⊢
      rw [branch_bound]
      exact Or.inr (hc hk)
  · rcases List.mem_append.mp ho with ho | ho
    · exact h.names o' ho hk
    · rw [List.mem_singleton.mp ho] at hk ⊢
      exact hn hk

theorem exec_settled {β : Type} {c : Call β} (hc : k.Lets X c) {w : World} (h : k.Settled X w.store.visible) :
    k.Settled X (exec c w).2.store.visible := by
  by_cases hk : c.keepsRecords = true
  · exact settled_same h (exec_same hk w)
  · cases c <;> try exact absurd rfl hk
    case beginRecoveryOperation o =>
      simp only [exec, Store.visible_update]
      exact settled_begin h hc.1 hc.2
    case finishRecoveryOperation o => exact settled_settles h (Store.finish_settles _ _ _).1
    case abandonRecoveryOperation id =>
      simp only [exec, World.onStore, Store.visible_update]
      exact settled_abandon h id
    case saveWorkspaceRecord record =>
      simp only [exec, World.onStore, Store.visible_update]
      exact settled_save h hc
    case setWorkspaceState name state =>
      simp only [exec, World.onStore, Store.visible_update]
      exact settled_setState h hc state

theorem step_settled {F : Faults} {β : Type} {c : Call β} (hc : k.Lets X c) {w w' : World} {r : Except Errno β}
    (hs : (hosts F).step c w r w') (h : k.Settled X w.store.visible) : k.Settled X w'.store.visible := by
  rcases hs with hs | ⟨-, -, hs⟩
  · rw [show w' = (exec c w).2 by rw [hs]]
    exact exec_settled hc h
  · cases hs with
    | error => exact h
    | copy => exact h
    | write p data offset n => exact h
    | finish o f => exact settled_settles h (Store.finish_settles _ _ _).1

/-- What is known of the world while the names of `X` keep their states; `X₀` is what holds of the names that a stop leaves. -/
structure Stable (k : Stakes) (X₀ X : Name → Prop) (w : World) : Prop where
  guarded : k.Guarded w.git
  visible : k.Settled X w.store.visible
  committed : k.Settled X₀ w.store.committed

theorem Settled.weaken {t : Tables} (h : k.Settled X t) (hX : ∀ n, X n → X' n) : k.Settled X' t :=
  ⟨h.keyed, fun o ho hk => (h.creates o ho hk).imp (fun ha => ⟨ha.1, hX _ ha.2⟩) id, h.names⟩

theorem Stable.weaken {X₀ : Name → Prop} {w : World} (h : Stable k X₀ X w) (hX : ∀ n, X n → X₀ n) : Stable k X₀ X₀ w :=
  ⟨h.guarded, Settled.weaken h.visible hX, h.committed⟩

theorem step_stable {F : Faults} {β : Type} {c : Call β} {X₀ : Name → Prop} (hX : ∀ n, X n → X₀ n) (hc : k.Lets X c)
    {w w' : World} {r : Except Errno β} (hs : (hosts F).step c w r w') (h : Stable k X₀ X w) : Stable k X₀ X w' := by
  have hv := step_settled hc hs h.visible
  refine ⟨step_guarded hc hs h.guarded, hv, ?_⟩
  rcases step_commits hs with he | he
  · rw [he]
    exact h.committed
  · rw [he]
    exact Settled.weaken hv hX

/-! ## The threads -/

/-- The calls of a reclamation. -/
def JobCall (name : Name) : {β : Type} → Call β → Prop
  | _, .gitWorktreeRemove path => path.getLast? = some name
  | _, .setWorkspaceState n state => n = name ∧ state = .reclaimed
  | _, .abandonRecoveryOperation _ => True
  | _, c => c.plain = true

theorem jobCall_plain {name : Name} {β : Type} (c : Call β) (h : c.plain = true) : JobCall name c := by
  cases c <;> first
    | exact h
    | cases h

theorem reclaimWorkspace_calls (j : Reclamation) : Calls (JobCall j.name) (reclaimWorkspace j.paths j.name j.id) := by
  have hremove : JobCall j.name (.gitWorktreeRemove (j.paths.mountPoint ++ [j.name])) := List.getLast?_concat ..
  refine calls_bind (calls_detailed (calls_call rfl)) (fun started => ?_)
  refine calls_bind (unregisterLinkedWorktree_calls jobCall_plain hremove) (fun _ => ?_)
  refine calls_bind (calls_detailed ((removeAll_plain _).mono jobCall_plain)) (fun _ => ?_)
  refine calls_bind (calls_detailed (calls_call rfl)) (fun _ => calls_bind (calls_detailed (calls_call rfl)) (fun _ => ?_))
  refine calls_bind (calls_detailed (calls_call rfl)) (fun now => calls_bind (calls_detailed (calls_call rfl)) (fun _ => ?_))
  exact calls_bind (calls_detailed (calls_call ⟨rfl, rfl⟩)) (fun _ => calls_detailed (calls_call trivial))

theorem work_calls (root : HostPath) (main : DaemonState → Semantics Call Errno World) (job : Semantics Call Errno World)
    (env : DaemonState → World → World → Prop) (j : Reclamation) :
    ((lifecycle root main job env).work j).Only (JobCall j.name) (fun _ => True) :=
  Prog.Only.bind (reclaimWorkspace_calls j) (fun _ _ => trivial)

theorem lets_plain (X : Name → Prop) {β : Type} (c : Call β) (h : c.plain = true) : k.Lets X c := by
  cases c <;> trivial

theorem lets_jobCall {name : Name} (hd : k.doomed name) (hX : ¬X name) {β : Type} (c : Call β) (h : JobCall name c) :
    k.Lets X c := by
  cases c <;> first
    | trivial
    | exact ⟨name, hd, h⟩
    | exact (h.1 ▸ hX)

/-- No name becomes active. -/
def NoneActivated (w w' : World) : Prop :=
  ∀ name, w'.store.visible.HasState name .active → w.store.visible.HasState name .active

theorem noneActivated_same {w w' : World} (h : Same w.store.visible w'.store.visible) : NoneActivated w w' :=
  fun name ha => (h.states name _).mp ha

theorem noneActivated_settles {w w' : World} {id : Nat} (h : Settles id w.store.visible w'.store.visible) :
    NoneActivated w w' := by
  rcases h with h | ⟨t₁, h, he⟩
  · exact noneActivated_same h
  · intro name ha
    rw [he] at ha
    exact (h.states name _).mp ha

theorem jobCall_noneActivated {F : Faults} {name : Name} {β : Type} {c : Call β} (hc : JobCall name c) {w w' : World}
    {r : Except Errno β} (hs : (hosts F).step c w r w') : NoneActivated w w' := by
  by_cases hk : c.keepsRecords = true
  · exact noneActivated_same (step_same hk hs)
  · cases c <;> try exact absurd rfl hk
    case beginRecoveryOperation o => cases hc
    case finishRecoveryOperation o => cases hc
    case saveWorkspaceRecord record => cases hc
    case abandonRecoveryOperation id =>
      rcases step_whole rfl hs with he | ⟨-, -, rfl⟩
      · obtain ⟨-, rfl⟩ := Prod.mk.inj he
        have hv := Store.visible_update w.store (·.abandonRecoveryOperation id)
        exact noneActivated_settles (Or.inr ⟨_, Same.refl _, hv⟩)
      · exact fun _ ha => ha
    case setWorkspaceState n state =>
      rcases step_whole rfl hs with he | ⟨-, -, rfl⟩
      · obtain ⟨-, rfl⟩ := Prod.mk.inj he
        have hv := Store.visible_update w.store (·.setWorkspaceState n state)
        intro name' ha
        rw [hv] at ha
        rcases (hasState_setState ..).mp ha with ⟨-, ha⟩ | ⟨-, h, -⟩
        · exact ha
        · rw [hc.2] at h
          cases h
      · exact fun _ ha => ha

/-- What everybody but the main thread does. -/
structure Aside (k : Stakes) (X₀ : Name → Prop) (w w' : World) : Prop where
  stable : ∀ X : Name → Prop, (∀ n, X n → X₀ n) → Stable k X₀ X w → Stable k X₀ X w'
  noneActivated : NoneActivated w w'

/-- The main thread while it serves the request. -/
def mainContract (k : Stakes) (X₀ : Name → Prop) : Contract World where
  rely := Aside k X₀
  guar _ _ := True
  inv := Stable k X₀ X₀
  rely_refl _ := ⟨fun _ _ h => h, fun _ h => h⟩
  rely_trans _ _ _ h h' := ⟨fun X hX hs => h'.stable X hX (h.stable X hX hs), fun n ha => h.noneActivated n (h'.noneActivated n ha)⟩

/-- A reclamation. -/
def jobContract (k : Stakes) (X₀ : Name → Prop) : Contract World where
  rely _ _ := True
  guar := Aside k X₀
  inv _ := True
  rely_refl _ := trivial
  rely_trans _ _ _ _ _ := trivial

theorem job_safe {X₀ : Name → Prop} {name : Name} (hd : k.doomed name) (hX : ¬X₀ name) {p : Prog Call Errno Unit} {w : World}
    (hp : p.Only (JobCall name) (fun _ => True)) : p.Safe (hosts anyFaults) (jobContract k X₀) (fun _ _ => True) w := by
  have hguar : ∀ {γ : Type} (c : Call γ) (w : World) r w', JobCall name c → True → (hosts anyFaults).step c w r w' →
      (jobContract k X₀).guar w w' ∧ True := by
    intro γ c w r w' hc _ hs
    refine ⟨⟨fun X hX' h => ?_, jobCall_noneActivated hc hs⟩, trivial⟩
    exact step_stable hX' (lets_jobCall hd (fun hx => hX (hX' _ hx)) c hc) hs h
  exact (Prog.Only.safe hp hguar (fun _ _ _ _ => trivial) (fun _ _ => trivial) trivial).mono (fun _ _ _ => trivial)

theorem lets_engine {β : Type} {c : Call β} {w : World} (hc : c.engineRecord w) : k.Lets X c := by
  cases c <;> try exact hc.elim
  case beginRecoveryOperation o =>
    have hk : o.kind.lifecycle = false := hc
    refine ⟨fun h => ?_, fun h => ?_⟩
    · rw [h] at hk
      cases hk
    · rw [h] at hk
      cases hk
  all_goals trivial

theorem aside_around {X₀ : Name → Prop} {w w' : World} (h : AroundGit w w') : Aside k X₀ w w' := by
  obtain ⟨h, hgit⟩ := h
  cases h with
  | host hstore =>
    refine ⟨fun X hX hs => ⟨hgit ▸ hs.guarded, hstore ▸ hs.visible, hstore ▸ hs.committed⟩, fun n ha => ?_⟩
    rw [hstore] at ha
    exact ha
  | @engine β c r w' hc hs =>
    refine ⟨fun X hX h => step_stable hX (lets_engine hc) hs h, ?_⟩
    by_cases hk : c.keepsRecords = true
    · exact noneActivated_same (step_same hk hs)
    · cases c <;> try exact absurd rfl hk
      case beginRecoveryOperation o =>
        rcases step_whole rfl hs with he | ⟨-, -, rfl⟩
        · obtain ⟨-, rfl⟩ := Prod.mk.inj he
          have hv := Store.visible_update w.store (·.beginRecoveryOperation o)
          intro n ha
          rw [hv] at ha
          exact ha
        · exact fun _ ha => ha
      case finishRecoveryOperation o => exact noneActivated_settles (step_finish rfl hs)
      case abandonRecoveryOperation id =>
        have hc' : JobCall [] (.abandonRecoveryOperation id) := trivial
        exact jobCall_noneActivated hc' hs
      all_goals exact hc.elim

/-! ## The request -/

/-- The names that keep their states while a Workspace is created. -/
def Others (X₀ : Name → Prop) (name : Name) (n : Name) : Prop := X₀ n ∧ n ≠ name

/-- What is at stake in a creation. -/
structure Creation (k : Stakes) (name branch : Name) : Prop where
  doomed : k.doomed name
  requested : cStr branch = k.requested
  spares : k.Spares k.requested
  linked : k.linked → ∃ b ∈ k.branches, b.1 = k.requested

section create

variable {X₀ : Name → Prop} {name branch : Name} {paths : ProjectPaths} {id : Nat} {ε α : Type}

theorem stable_steady (hX : ∀ n, X n → X₀ n) : Steady (mainContract k X₀) (Stable k X₀ X) :=
  ⟨fun _ _ h hr => hr.stable X hX h, fun _ h => h.weaken hX⟩

theorem others_le : ∀ n, Others X₀ name n → X₀ n := fun _ h => h.1

theorem not_others : ¬Others X₀ name name := fun h => h.2 rfl

theorem main_lets {F : Faults} {p : Fallible ε α} (hX : ∀ n, X n → X₀ n) (hp : Calls (k.Lets X) p) :
    Ensures (hosts F) (mainContract k X₀) (Stable k X₀ X) p (fun _ => Stable k X₀ X) (fun _ => Stable k X₀ X) :=
  ensures_kept hp (stable_steady hX) (fun _ _ _ _ hc h hs => ⟨trivial, step_stable hX hc hs h⟩)

theorem stored_lets {c : Call α} (h : k.Lets X c) : Calls (k.Lets X) (stored c) :=
  calls_orElseDo (calls_call h) (fun _ => calls_fail _)

theorem abandonCreation_lets (e : LifecycleError) :
    Calls (k.Lets (Others X₀ name)) (abandonCreation name id e : Fallible LifecycleError α) :=
  calls_bind (calls_ignore (calls_call not_others)) (fun _ => calls_bind (calls_ignore (calls_call trivial)) (fun _ => calls_fail _))

variable (hk : Creation k name branch)
include hk

theorem undoCreation_lets (e : LifecycleError) :
    Calls (k.Lets (Others X₀ name)) (undoCreation paths name branch id e : Fallible LifecycleError α) := by
  have hrollback : Calls (k.Lets (Others X₀ name)) (rollbackLinkedWorktreeCreation paths.root branch
      (paths.mountPoint ++ [name]) (paths.stagingDir ++ [name])) := by
    refine rollbackLinkedWorktreeCreation_calls (lets_plain _) ⟨name, hk.doomed, List.getLast?_concat ..⟩
      ⟨name, hk.doomed, List.getLast?_concat ..⟩ ?_
    show k.Spares (cStr branch)
    rw [hk.requested]
    exact hk.spares
  exact calls_bind (calls_ignore hrollback) (fun _ =>
    calls_bind (calls_ignore ((removeAll_plain _).mono (lets_plain _))) (fun _ => abandonCreation_lets e))

theorem journalCreation_lets : Calls (k.Lets (Others X₀ name)) (journalCreation name branch) := by
  refine calls_bind (calls_orElseDo (calls_call trivial) (fun _ => calls_fail _)) (fun _ => stored_lets ⟨fun _ => ?_, fun _ => ?_⟩)
  · have hb : RecoveryOperation.branch
        { workspace := name, kind := .workspaceCreate, path := [name], target := RelPath.ofText branch } = k.requested := by
      rw [RecoveryOperation.branch, text_ofText, hk.requested]
    rw [hb]
    exact hk.spares
  · exact hk.doomed

omit hk in
theorem saveCreating_lets {record : WorkspaceRecord} (hn : record.name = name) :
    Calls (k.Lets (Others X₀ name)) (saveCreating record id) := by
  have hsave : k.Lets (Others X₀ name) (.saveWorkspaceRecord record) := fun h => h.2 hn
  have hdrop : ∀ e : LifecycleError, Calls (k.Lets (Others X₀ name)) (do
      (Io.call (.abandonRecoveryOperation id)).ignore
      Fallible.fail e : Fallible LifecycleError Unit) :=
    fun e => calls_bind (calls_ignore (calls_call trivial)) (fun _ => calls_fail e)
  exact calls_bind (calls_orElseDo (calls_call trivial) (fun _ => hdrop _)) (fun _ =>
    calls_orElseDo (calls_call hsave) (fun _ => hdrop _))

omit hk in
theorem createStorage_lets : Calls (k.Lets (Others X₀ name)) (createStorage paths name id) :=
  calls_bind (calls_orElseDo (calls_call trivial) (fun _ => abandonCreation_lets _)) (fun _ =>
    calls_bind (calls_orElseDo ((createDirectories_plain _).mono (lets_plain _)) (fun _ => calls_fail _)) (fun _ =>
      calls_orFail ((syncParentDirectory_plain _).mono (lets_plain _))))

theorem activate_lets {record : WorkspaceRecord} (hn : record.name = name) (hb : record.branch = branch) :
    Calls (k.Lets (Others X₀ name)) (activate paths record id) := by
  subst hn hb
  exact calls_bind (calls_orElseDo (calls_call trivial) (fun _ => undoCreation_lets hk _)) (fun _ =>
    calls_bind (calls_orElseDo (calls_call not_others) (fun _ => undoCreation_lets hk _)) (fun _ => stored_lets trivial))

/-- Where the branch is there and checked out in a linked worktree, Git makes none of its name. -/
theorem gitBranch_linked {F : Faults} {projectRoot : HostPath} {w w' : World} {r : Except Errno GitReply}
    (hl : k.linked) (h : k.Guarded w.git) (hs : (hosts F).step (.gitBranch projectRoot (cStr branch)) w r w') :
    r ≠ .ok .ok := by
  rcases step_whole rfl hs with he | ⟨-, ⟨x, rfl⟩, -⟩
  · obtain ⟨rfl, -⟩ := Prod.mk.inj he
    obtain ⟨b, hb, hname⟩ := hk.linked hl
    rcases gitBranch_cases w projectRoot (cStr branch) with he | ⟨commit, -, hnew⟩
    · rw [he]
      simp
    · exact absurd (hname.trans hk.requested.symm) (hnew b (h.branches b hb))
  · simp

theorem registerLinkedWorktree_does {F : Faults} {workspacePath stagingDir : HostPath} :
    Ensures (hosts F) (mainContract k X₀) (Stable k X₀ (Others X₀ name))
      (registerLinkedWorktree paths.root branch workspacePath stagingDir) (fun _ => Stable k X₀ (Others X₀ name))
      (fun _ => Stable k X₀ (Others X₀ name)) := by
  have steady : ∀ {β : Type} (_ : β), Steady (mainContract k X₀) (Stable k X₀ (Others X₀ name)) :=
    fun _ => stable_steady others_le
  -- Git refuses the branch where a worktree is linked to it, so nothing then moves
  have hlinked : ∀ r, Steady (mainContract k X₀) (fun w => Stable k X₀ (Others X₀ name) w ∧ (r = GitReply.ok → ¬k.linked)) :=
    fun r => ⟨fun w w' h hr => ⟨(steady r).rely w w' h.1 hr, h.2⟩, fun w h => (steady r).inv w h.1⟩
  refine ensures_bind (main_lets others_le (calls_ignore ((removeAll_plain _).mono (lets_plain _)))) steady (fun _ => ?_)
  refine ensures_bind (main_lets others_le (calls_ignore ((createDirectories_plain _).mono (lets_plain _)))) steady (fun _ => ?_)
  refine ensures_bind (ensures_orElseDo (ensures_call (steady ()) hlinked steady (fun w r w' h hs => ⟨trivial, ?_⟩)) hlinked
    (fun x => ensures_fail (steady x) (fun _ h => h))) steady (fun branched => ?_)
  · have hbranch : k.Lets (Others X₀ name) (.gitBranch paths.root (cStr branch)) := trivial
    have hstable := step_stable others_le hbranch hs h
    cases r with
    | error x => exact hstable
    | ok reply => exact ⟨hstable, fun he hl => gitBranch_linked hk hl h.guarded hs (he ▸ rfl)⟩
  · intro w hw
    by_cases hl : k.linked
    · have hne : branched ≠ GitReply.ok := fun he => hw.2 he hl
      have hfalse : Ensures (hosts F) (mainContract k X₀) (fun w => Stable k X₀ (Others X₀ name) w ∧
          (branched = GitReply.ok → ¬k.linked)) (Fallible.refuse (branched ≠ .ok) RegisterError.worktreeAddFailed)
          (fun _ _ => False) (fun _ => Stable k X₀ (Others X₀ name)) :=
        ensures_refuse (hlinked branched) (fun _ _ hc => hc hne) (fun _ h _ => h.1)
      exact ensures_bind hfalse steady (fun _ _ hf => hf.elim) w hw
    · have hadd : k.Lets (Others X₀ name) (.gitWorktreeAdd paths.root (cStr branch) stagingDir) := trivial
      exact main_lets others_le (branched_calls (lets_plain _) hadd (fun _ _ => hl)) w hw.1

theorem connectWorktree_does {F : Faults} :
    Ensures (hosts F) (mainContract k X₀) (Stable k X₀ (Others X₀ name)) (connectWorktree paths name branch id)
      (fun _ => Stable k X₀ (Others X₀ name)) (fun _ => Stable k X₀ (Others X₀ name)) := by
  have steady : ∀ {β : Type} (_ : β), Steady (mainContract k X₀) (Stable k X₀ (Others X₀ name)) :=
    fun _ => stable_steady others_le
  refine ensures_bind (ensures_orElseDo (registerLinkedWorktree_does hk) steady (fun e => main_lets others_le ?_)) steady
    (fun gitFile => main_lets others_le ?_)
  · exact calls_bind (calls_ignore ((removeAll_plain _).mono (lets_plain _))) (fun _ => abandonCreation_lets _)
  · exact calls_bind (calls_orElseDo (calls_call trivial) (fun _ => undoCreation_lets hk _)) (fun _ =>
      calls_orElseDo ((writeFileDurably_plain _ _).mono (lets_plain _)) (fun _ => undoCreation_lets hk _))

theorem buildWorkspace_does {F : Faults} :
    Ensures (hosts F) (mainContract k X₀) (Stable k X₀ (Others X₀ name)) (buildWorkspace paths name branch)
      (fun _ => Stable k X₀ (Others X₀ name)) (fun _ => Stable k X₀ (Others X₀ name)) := by
  have steady : ∀ {β : Type} (_ : β), Steady (mainContract k X₀) (Stable k X₀ (Others X₀ name)) :=
    fun _ => stable_steady others_le
  refine ensures_bind (main_lets others_le (stored_lets trivial)) steady (fun started => ?_)
  refine ensures_bind (main_lets others_le (journalCreation_lets hk)) steady (fun id => ?_)
  refine ensures_bind (main_lets others_le (stored_lets trivial)) steady (fun createdAt => ?_)
  refine ensures_bind (main_lets others_le (saveCreating_lets rfl)) steady (fun _ => ?_)
  refine ensures_bind (main_lets others_le createStorage_lets) steady (fun _ => ?_)
  refine ensures_bind (connectWorktree_does hk) steady (fun _ => main_lets others_le ?_)
  exact calls_bind (stored_lets trivial) (fun now => calls_bind (activate_lets hk rfl rfl) (fun _ =>
    calls_bind ((constructEngine_reads _ _).plain.mono (lets_plain _)) (fun _ => calls_pure _)))

omit hk in
/-- A name that is not active is none that counts. -/
theorem settled_others {t : Tables} (h : k.Settled X₀ t) (ha : ¬t.HasState name .active) : k.Settled (Others X₀ name) t :=
  ⟨h.keyed, fun o ho hc => (h.creates o ho hc).imp (fun hs => ⟨hs.1, hs.2, fun he => ha (he ▸ hs.1)⟩) id, h.names⟩

end create

theorem createWorkspace_does {X₀ : Name → Prop} {m : Manager} {name requestedBranch : Bytes}
    (hk : Creation k name (requestedOr name requestedBranch)) :
    Ensures (hosts recordsRead) (mainContract k X₀) (Stable k X₀ X₀) (createWorkspace m name requestedBranch)
      (fun _ => Stable k X₀ X₀) (fun _ => Stable k X₀ X₀) := by
  have hX : ∀ n, X₀ n → X₀ n := fun _ h => h
  have steady : ∀ {β : Type} (_ : β), Steady (mainContract k X₀) (Stable k X₀ X₀) := fun _ => stable_steady hX
  refine ensures_bind (main_lets hX (calls_refuse _ _)) steady (fun _ => ensures_bind (main_lets hX (calls_refuse _ _)) steady
    (fun _ => ?_))
  -- a record that is read is not active, unless the request is refused
  have hread : ∀ a : Option WorkspaceRecord, Steady (mainContract k X₀) (fun w => Stable k X₀ X₀ w ∧
      (w.store.visible.HasState name .active → a.map (·.state) = some .active)) := fun a =>
    ⟨fun w w' h hr => ⟨(steady a).rely w w' h.1 hr, fun hs => h.2 (hr.noneActivated _ hs)⟩, fun w h => (steady a).inv w h.1⟩
  refine ensures_bind (ensures_answer (steady ()) hread (fun w r w' h hs => ⟨trivial, ?_⟩)) steady (fun a => ?_)
  · rcases step_whole rfl hs with he | ⟨hmay, -, -⟩
    · obtain ⟨rfl, rfl⟩ := Prod.mk.inj he
      refine ⟨h, fun ha => ?_⟩
      show (w.store.visible.loadWorkspaceRecord name).map (·.state) = some .active
      cases hl : w.store.visible.loadWorkspaceRecord name with
      | none => exact absurd ha (not_hasState_of_load hl)
      | some record => exact congrArg some (h.visible.keyed.state_unique (hasState_of_load hl) ha)
    · cases hmay
  · have hrefuse : Ensures (hosts recordsRead) (mainContract k X₀) (fun w => Stable k X₀ X₀ w ∧
        (w.store.visible.HasState name .active → a.map (·.state) = some .active))
        (Fallible.refuse (∃ record ∈ a, record.state ≠ .reclaimed) LifecycleError.stillInUse)
        (fun _ => Stable k X₀ (Others X₀ name)) (fun _ => Stable k X₀ X₀) := by
      refine ensures_refuse (hread a) (fun w hw hc => ?_) (fun _ h _ => h.1)
      refine ⟨hw.1.guarded, settled_others hw.1.visible (fun ha => hc ?_), hw.1.committed⟩
      obtain ⟨record, hr, hst⟩ := Option.map_eq_some_iff.mp (hw.2 ha)
      exact ⟨record, hr, by rw [hst]; decide⟩
    exact ensures_bind hrefuse steady (fun _ => (buildWorkspace_does hk).mono (fun _ h => h) (fun _ _ h => h.weaken others_le)
      (fun _ _ h => h.weaken others_le))

/-! ## Recovery -/

/-- Recovery runs alone. -/
def recoveryContract (k : Stakes) : Contract World where
  rely := Eq
  guar _ _ := True
  inv w := k.Guarded w.git
  rely_refl _ := rfl
  rely_trans _ _ _ := Eq.trans

/-- The loaded creations that are not of an active Workspace can be rolled back. -/
structure Recovering (k : Stakes) (loaded : List RecoveryOperation) (X : Name → Prop) (w : World) : Prop where
  guarded : k.Guarded w.git
  keyed : w.store.visible.Keyed
  creates : ∀ o ∈ loaded, o.kind = .workspaceCreate →
    (w.store.visible.HasState o.workspace .active ∧ X o.workspace) ∨ k.Spares o.branch
  names : ∀ o ∈ loaded, o.kind.lifecycle = true → k.doomed o.workspace

/-- The names that count stay active. -/
theorem exec_active {β : Type} {c : Call β} (hc : k.Lets X c) {w : World} {n : Name} (hn : X n)
    (ha : w.store.visible.HasState n .active) : (exec c w).2.store.visible.HasState n .active := by
  by_cases hk : c.keepsRecords = true
  · exact ((exec_same hk w).states n _).mpr ha
  · cases c <;> try exact absurd rfl hk
    case beginRecoveryOperation o => simpa only [exec, Store.visible_update, hasState_begin] using ha
    case finishRecoveryOperation o =>
      rcases (Store.finish_settles w.store {} o).1 with h | ⟨t, h, he⟩
      · exact (h.states n _).mpr ha
      · simp only [exec, he]
        exact (h.states n _).mpr ha
    case abandonRecoveryOperation id => simpa only [exec, World.onStore, Store.visible_update, hasState_abandon] using ha
    case saveWorkspaceRecord record =>
      simp only [exec, World.onStore, Store.visible_update]
      exact (hasState_save ..).mpr (Or.inr ⟨fun he => hc (he ▸ hn), ha⟩)
    case setWorkspaceState name state =>
      simp only [exec, World.onStore, Store.visible_update]
      exact (hasState_setState ..).mpr (Or.inl ⟨fun he => hc (he ▸ hn), ha⟩)

theorem step_active {F : Faults} {β : Type} {c : Call β} (hc : k.Lets X c) {w w' : World} {r : Except Errno β}
    (hs : (hosts F).step c w r w') {n : Name} (hn : X n) (ha : w.store.visible.HasState n .active) :
    w'.store.visible.HasState n .active := by
  rcases hs with hs | ⟨-, -, hs⟩
  · rw [show w' = (exec c w).2 by rw [hs]]
    exact exec_active hc hn ha
  · cases hs with
    | error => exact ha
    | copy => exact ha
    | write p data offset n => exact ha
    | finish o f =>
      rcases (Store.finish_settles w.store f o).1 with h | ⟨t, h, he⟩
      · exact (h.states n _).mpr ha
      · simp only [he]
        exact (h.states n _).mpr ha

section recovery

variable {loaded : List RecoveryOperation} {o : RecoveryOperation} {ε α : Type}

theorem alone_steady {P : World → Prop} (hP : ∀ w, P w → k.Guarded w.git) : Steady (recoveryContract k) P :=
  ⟨fun _ _ h he => he ▸ h, hP⟩

theorem guarded_steady : Steady (recoveryContract k) (fun w => k.Guarded w.git) := alone_steady (fun _ h => h)

theorem recovering_steady : Steady (recoveryContract k) (Recovering k loaded X) := alone_steady (fun _ h => h.guarded)

theorem recovery_lets {F : Faults} {p : Fallible ε α} (hp : Calls (k.Lets X) p) :
    Ensures (hosts F) (recoveryContract k) (Recovering k loaded X) p (fun _ => Recovering k loaded X)
      (fun _ w => k.Guarded w.git) := by
  refine (ensures_kept hp recovering_steady (fun c w r w' hc h hs => ⟨trivial, step_guarded hc hs h.guarded,
    step_keyed hs h.keyed, fun o ho hk => ?_, h.names⟩)).mono (fun _ h => h) (fun _ _ h => h) (fun _ _ h => h.guarded)
  exact (h.creates o ho hk).imp (fun ha => ⟨step_active hc hs ha.2 ha.1, ha.2⟩) id

/-- Where the record of a name is not active, no loaded creation counts on it. -/
def ReadBack (k : Stakes) (loaded : List RecoveryOperation) (name : Name) (a : Option WorkspaceRecord) (w : World) : Prop :=
  Recovering k loaded (fun _ => True) w ∧ (a.map (·.state) ≠ some .active → Recovering k loaded (· ≠ name) w)

theorem readBack_steady {name : Name} (a : Option WorkspaceRecord) : Steady (recoveryContract k) (ReadBack k loaded name a) :=
  alone_steady (fun _ h => h.1.guarded)

theorem readBack_does {name : Name} : Ensures (ε := ε) (hosts recordsRead) (recoveryContract k)
    (Recovering k loaded (fun _ => True)) (loadWorkspaceRecord name) (ReadBack k loaded name) (fun _ w => k.Guarded w.git) := by
  refine ensures_answer recovering_steady readBack_steady (fun w r w' h hs => ⟨trivial, ?_⟩)
  rcases step_whole rfl hs with he | ⟨hmay, -, -⟩
  · obtain ⟨rfl, rfl⟩ := Prod.mk.inj he
    refine ⟨h, fun hne => ⟨h.guarded, h.keyed, fun o ho hk => ?_, h.names⟩⟩
    refine (h.creates o ho hk).imp (fun ha => ⟨ha.1, ?_⟩) id
    rintro rfl
    refine hne ?_
    show (w.store.visible.loadWorkspaceRecord o.workspace).map (·.state) = some .active
    cases hl : w.store.visible.loadWorkspaceRecord o.workspace with
    | none => exact absurd ha.1 (not_hasState_of_load hl)
    | some record => exact congrArg some (h.keyed.state_unique (hasState_of_load hl) ha.1)
  · cases hmay

theorem Recovering.top {w : World} (h : Recovering k loaded X w) : Recovering k loaded (fun _ => True) w :=
  ⟨h.guarded, h.keyed, fun o ho hk => (h.creates o ho hk).imp (fun ha => ⟨ha.1, trivial⟩) id, h.names⟩

theorem not_ne {name : Name} : ¬(fun n => n ≠ name) name := fun h => h rfl

/-- The rest of a round after a record that is not active has been read. -/
theorem roundEnd_does {F : Faults} {p : Fallible RecoveryDetail Unit} {name : Name} (hp : Calls (k.Lets (· ≠ name)) p) :
    Ensures (hosts F) (recoveryContract k) (Recovering k loaded (· ≠ name)) p (fun _ => Recovering k loaded (fun _ => True))
      (fun _ w => k.Guarded w.git) :=
  (recovery_lets hp).mono (fun _ h => h) (fun _ _ h => h.top) (fun _ _ h => h)

theorem recoverWorkspaceCreate_does (projectRoot tribiosDir workspacesDir : HostPath) (hmem : o ∈ loaded)
    (hk : o.kind = .workspaceCreate) :
    Ensures (hosts recordsRead) (recoveryContract k) (Recovering k loaded (fun _ => True))
      (recoverWorkspaceCreate projectRoot tribiosDir workspacesDir o) (fun _ => Recovering k loaded (fun _ => True))
      (fun _ w => k.Guarded w.git) := by
  have habandon : ∀ {Y : Name → Prop}, Calls (k.Lets Y)
      (detailed (Io.call (.abandonRecoveryOperation o.id)) RecoveryDetail.storeFailed) :=
    calls_detailed (calls_call trivial)
  refine ensures_bind readBack_does (fun _ => guarded_steady) (fun a => ?_)
  by_cases ha : a.map (·.state) = some .active
  · refine (recovery_lets (calls_bind ?_ (fun _ => habandon))).mono (fun _ h => h.1) (fun _ _ h => h) (fun _ _ h => h)
    unfold recoverWorkspaceCreate.settleWorkspaceCreate
    rw [if_pos ha]
    exact (validateCompletedWorkspaceCreation_reads _ _ _).plain.mono (lets_plain _)
  · intro w hw
    have hw := hw.2 ha
    have hspares : k.Spares o.branch := (hw.creates o hmem hk).resolve_left (fun h => h.2 rfl)
    have hdoomed : k.doomed o.workspace := hw.names o hmem (by rw [hk]; rfl)
    refine roundEnd_does (calls_bind ?_ (fun _ => habandon)) w hw
    unfold recoverWorkspaceCreate.settleWorkspaceCreate
    rw [if_neg ha]
    refine calls_bind (loadProjectRecord_reads.plain.mono (lets_plain _)) (fun project => ?_)
    cases project with
    | none => exact calls_fail _
    | some project =>
      refine calls_bind (calls_detailed ((removeAll_plain _).mono (lets_plain _))) (fun _ => calls_bind
        (rollbackLinkedWorktreeCreation_calls (lets_plain _) ?_ ?_ hspares) (fun _ => calls_onlyIf (calls_detailed
          (calls_call not_ne))))
      · exact ⟨o.workspace, hdoomed, List.getLast?_concat ..⟩
      · exact ⟨o.workspace, hdoomed, by simp⟩

theorem recoverWorkspaceRemove_does (projectRoot workspacesDir : HostPath) (hmem : o ∈ loaded)
    (hk : o.kind = .workspaceRemove) :
    Ensures (hosts recordsRead) (recoveryContract k) (Recovering k loaded (fun _ => True))
      (recoverWorkspaceRemove projectRoot workspacesDir o) (fun _ => Recovering k loaded (fun _ => True))
      (fun _ w => k.Guarded w.git) := by
  refine ensures_bind readBack_does (fun _ => guarded_steady) (fun a => ensures_ite (fun _ => ?_) (fun ha => ?_))
  · have habandon : Calls (k.Lets (fun _ => True))
        (detailed (Io.call (.abandonRecoveryOperation o.id)) RecoveryDetail.storeFailed) := calls_detailed (calls_call trivial)
    exact (recovery_lets habandon).mono (fun _ h => h.1) (fun _ _ h => h) (fun _ _ h => h)
  · intro w hw
    have hw := hw.2 (fun he => ha (Or.inr he))
    have hdoomed : k.doomed o.workspace := hw.names o hmem (by rw [hk]; rfl)
    refine roundEnd_does (calls_bind (loadProjectRecord_reads.plain.mono (lets_plain _)) (fun project => ?_)) w hw
    cases project with
    | none => exact calls_fail _
    | some project =>
      refine calls_bind (unregisterLinkedWorktree_calls (lets_plain _) ⟨o.workspace, hdoomed, List.getLast?_concat ..⟩)
        (fun _ => ?_)
      refine calls_bind (calls_detailed ((removeAll_plain _).mono (lets_plain _))) (fun _ => ?_)
      refine calls_bind (calls_detailed (calls_call trivial)) (fun _ => ?_)
      refine calls_bind (calls_detailed (calls_call trivial)) (fun _ => ?_)
      refine calls_bind (calls_detailed (calls_call trivial)) (fun _ => ?_)
      exact calls_bind (calls_detailed (calls_call not_ne)) (fun _ => calls_detailed (calls_call trivial))

theorem recoverEngineRecord_lets (workspacesDir : HostPath) : Calls (k.Lets X) (recoverEngineRecord workspacesDir o) := by
  refine calls_bind (calls_bind (calls_refuse _ _) (fun _ => calls_refuse _ _)) (fun _ => calls_ite ?_ ?_)
  · exact calls_bind (calls_detailed ((removeAll_plain _).mono (lets_plain _))) (fun _ => calls_detailed (calls_call trivial))
  · exact calls_bind ((applyPublishing_plain _ _ _).mono (lets_plain _)) (fun _ => calls_detailed (calls_call trivial))

theorem recoverInterruptedOperations_does (projectRoot tribiosDir workspacesDir : HostPath) {w : World} (hg : k.Guarded w.git)
    (hs : k.Settled (fun _ => True) w.store.visible) :
    (recoverInterruptedOperations projectRoot tribiosDir workspacesDir).Safe (hosts recordsRead) (recoveryContract k)
      (fun _ w' => k.Guarded w'.git) w := by
  have hload : Ensures (hosts recordsRead) (recoveryContract k) (fun w => k.Guarded w.git ∧ k.Settled (fun _ => True) w.store.visible)
      (Io.call .loadRecoveryOperations) (fun loaded => Recovering k loaded (fun _ => True)) (fun _ w => k.Guarded w.git) := by
    refine ensures_call (alone_steady (fun _ h => h.1)) (fun _ => recovering_steady) (fun _ => guarded_steady)
      (fun w r w' h hs => ⟨trivial, ?_⟩)
    rcases step_whole rfl hs with he | ⟨-, ⟨x, rfl⟩, rfl⟩
    · obtain ⟨rfl, rfl⟩ := Prod.mk.inj he
      exact ⟨h.1, h.2.keyed, h.2.creates, h.2.names⟩
    · exact h.1
  have hdoes : Ensures (hosts recordsRead) (recoveryContract k)
      (fun w => k.Guarded w.git ∧ k.Settled (fun _ => True) w.store.visible)
      (recoverInterruptedOperations projectRoot tribiosDir workspacesDir) (fun _ w => k.Guarded w.git)
      (fun _ w => k.Guarded w.git) := by
    refine ensures_bind (ensures_orElseDo hload (fun _ => recovering_steady) (fun x => ensures_fail guarded_steady (fun _ h => h)))
      (fun _ => guarded_steady) (fun loaded => ?_)
    refine ensures_bind (ensures_forEach recovering_steady (fun _ => guarded_steady) (fun o hmem => ensures_orElseDo ?_
      (fun _ => recovering_steady) (fun x => ensures_fail guarded_steady (fun _ h => h)))) (fun _ => guarded_steady) (fun _ => ?_)
    · unfold recoverOperation
      split
      · exact recoverWorkspaceCreate_does _ _ _ hmem ‹_›
      · exact recoverWorkspaceRemove_does _ _ hmem ‹_›
      · exact recovery_lets (recoverEngineRecord_lets _)
    · exact (recovery_lets ((reclaimLeftovers_plain _ _).mono (lets_plain _))).mono (fun _ h => h) (fun _ _ h => h.guarded)
        (fun _ _ h => h)
  refine Prog.Safe.mono (hdoes w ⟨hg, hs⟩) (fun r w' hr => ?_)
  cases r <;> exact hr

end recovery

/-! ## The world before the request -/

theorem around_keyed {w w' : World} (h : Around w w') (hk : w.Keyed) : w'.Keyed := by
  cases h with
  | host hstore => exact ⟨hstore ▸ hk.visible, hstore ▸ hk.committed⟩
  | engine _ hs => exact hk.step hs

theorem reach_keyed {root : HostPath} {w : World} {c : Workers Call Errno DaemonState Reclamation World}
    (hw : w.Configured) (hr : Workers.Reach (lifecycle root (fun _ => hosts anyFaults) (hosts anyFaults) (fun _ => Around))
      ⟨.idle .down, [], w⟩ c) : c.world.Keyed := by
  refine Workers.Reach.world (P := World.Keyed) (fun _ {_} _ _ _ _ hs h => h.step hs) (fun _ _ _ _ hs h => h.step hs)
    (fun _ _ _ he h => around_keyed he h) (fun s h => ?_) hr ?_
  · exact (⟨h.committed, h.committed⟩ : World.Keyed s.stop)
  obtain ⟨project, h⟩ := hw
  have hkeyed : ({ project := some project } : Tables).Keyed := ⟨List.nodup_nil, fun _ ho => (nomatch ho), List.nodup_nil⟩
  exact ⟨by rw [h]; exact hkeyed, by rw [h]; exact hkeyed⟩

/-- What is at stake in a request. -/
def stakes (w : World) (jobs : List (Reclamation × Prog Call Errno Unit)) (name branch : Name) : Stakes where
  branches := w.git.branches
  mainHead := w.git.mainHead
  requested := branch
  doomed n := n = name ∨ w.Unsettled jobs n
  linked := ¬w.git.Safe branch

theorem spares_of_safe {w : World} {jobs : List (Reclamation × Prog Call Errno Unit)} {name branch b : Name}
    (h : w.git.Safe b) : (stakes w jobs name branch).Spares b := h.imp id Or.inl

theorem spares_requested (w : World) (jobs : List (Reclamation × Prog Call Errno Unit)) (name branch : Name) :
    (stakes w jobs name branch).Spares branch := by
  by_cases h : w.git.Safe branch
  · exact spares_of_safe h
  · exact Or.inr (Or.inr ⟨rfl, h⟩)

theorem settled_of_spared {w : World} {jobs : List (Reclamation × Prog Call Errno Unit)} {name branch : Name}
    (h : Spared w jobs name branch) {t : Tables} (ht : w.store.Holds t) (hk : t.Keyed) :
    (stakes w jobs name branch).Settled (fun n => ∀ e ∈ jobs, e.1.name ≠ n) t := by
  refine ⟨hk, fun o ho hc => (h.pending t ht o ho hc).imp id (fun hs => ?_), fun o ho hl => ?_⟩
  · rcases hs with hs | he
    · exact spares_of_safe hs
    · rw [he]
      exact spares_requested w jobs name branch
  · exact Or.inr (Or.inr ⟨t, ht, o, ho, hl, rfl⟩)

/-- While the request is served, what is at stake stays guarded. -/
theorem serve_stable {root : HostPath} {X₀ : Name → Prop} {m : Manager} {name requestedBranch : Bytes}
    {jobs : List (Reclamation × Prog Call Errno Unit)} {s : World} {c : Workers Call Errno DaemonState Reclamation World}
    (hk : Creation k name (requestedOr name requestedBranch)) (hstart : Stable k X₀ X₀ s)
    (hjobs : ∀ e ∈ jobs, e.2.Safe (hosts anyFaults) (jobContract k X₀) (fun _ _ => True) s)
    (hserve : Workers.Runs (lifecycle root (fun _ => hosts recordsRead) (hosts anyFaults) (fun _ => AroundGit))
      ⟨.busy (.up m) ((LifecycleRequest.create name requestedBranch).serve m), jobs, s⟩ c) :
    Stable k X₀ X₀ c.world := by
  let Q : DaemonState × Option Reclamation → World → Prop := fun r s' => Stable k X₀ X₀ s' ∧ r.2 = none
  have hrequest : (LifecycleRequest.serve m (.create name requestedBranch)).Safe (hosts recordsRead) (mainContract k X₀) Q s := by
    refine Prog.Safe.bind (createWorkspace_does hk s hstart) (fun r s' hr s'' hrely => ?_)
    have hs' : Stable k X₀ X₀ s' := by cases r <;> exact hr
    have hs'' := hrely.stable _ (fun _ h => h) hs'
    cases r <;> exact ⟨hs'', rfl⟩
  have hamong : Workers.Among (lifecycle root (fun _ => hosts recordsRead) (hosts anyFaults) (fun _ => AroundGit))
      (mainContract k X₀) (jobContract k X₀) Q
      ⟨.busy (.up m) ((LifecycleRequest.create name requestedBranch).serve m), jobs, s⟩ := ⟨hrequest, hjobs⟩
  have hend := Workers.Among.runs (fun r s s' (hq : Q r s) (hr : Aside k X₀ s s') => ⟨hr.stable _ (fun _ h => h) hq.1, hq.2⟩)
    (fun r s j (hq : Q r s) hj => by rw [hq.2] at hj; cases hj) (fun _ _ _ => trivial) (fun _ _ h => h) (fun _ _ _ => trivial)
    (fun _ _ _ he => ⟨aside_around he, trivial⟩) hamong hserve
  rcases hend.inv_or_post with h | ⟨_, h, -⟩
  · exact h
  · exact h

end BranchAux

/-- The daemon of a configured Project is idle; it serves a creation that meets the condition, next to the reclamations that are
running, and stops anywhere in it; recovery, begun afterwards and seen at any point, has left every branch that was there before
the request at its commit. -/
theorem creation_spares_branches {root : HostPath} {w : World} (hw : w.Configured) {m : Manager}
    {jobs : List (Reclamation × Prog Call Errno Unit)} {s : World}
    (hreach : Workers.Reach (lifecycle root (fun _ => hosts anyFaults) (hosts anyFaults) (fun _ => Around))
      ⟨.idle .down, [], w⟩ ⟨.idle (.up m), jobs, s⟩)
    (name requestedBranch : Bytes) (hspared : Spared s jobs name (cStr (requestedOr name requestedBranch)))
    {c : Workers Call Errno DaemonState Reclamation World}
    (hserve : Workers.Runs (lifecycle root (fun _ => hosts recordsRead) (hosts anyFaults) (fun _ => AroundGit))
      ⟨.busy (.up m) ((LifecycleRequest.create name requestedBranch).serve m), jobs, s⟩ c)
    (tribiosDir workspacesDir : HostPath) {p : Fallible RecoveryFailure Unit} {w' : World}
    (hrecover : Prog.Reach (hosts recordsRead) Eq (recoverInterruptedOperations root tribiosDir workspacesDir)
      c.world.stop p w') :
    ∀ b ∈ s.git.branches, b ∈ w'.git.branches := by
  set k := BranchAux.stakes s jobs name (cStr (requestedOr name requestedBranch)) with hkdef
  have hkeyed := BranchAux.reach_keyed hw hreach
  have hstart : BranchAux.Stable k (fun n => ∀ e ∈ jobs, e.1.name ≠ n) (fun n => ∀ e ∈ jobs, e.1.name ≠ n) s := by
    refine ⟨⟨fun _ hb => hb, rfl, fun hl => hspared.requested.resolve_left hl⟩, ?_, ?_⟩
    · exact BranchAux.settled_of_spared hspared (Or.inl rfl) hkeyed.visible
    · exact BranchAux.settled_of_spared hspared (Or.inr rfl) hkeyed.committed
  have hjobs : ∀ e ∈ jobs, e.2.Safe (hosts anyFaults) (BranchAux.jobContract k (fun n => ∀ e ∈ jobs, e.1.name ≠ n))
      (fun _ _ => True) s := fun e he =>
    BranchAux.job_safe (Or.inr (Or.inl ⟨e, he, rfl⟩)) (fun h => h e he rfl)
      (Workers.Reach.jobs_only (BranchAux.work_calls root _ _ _) hreach (fun _ hj => nomatch hj) e he)
  have hcreation : BranchAux.Creation k name (requestedOr name requestedBranch) := by
    refine ⟨Or.inl rfl, rfl, BranchAux.spares_requested s jobs name _, fun hl => ?_⟩
    by_contra hno
    exact hl (Or.inl (fun b hb he => hno ⟨b, hb, he⟩))
  have hstopped := BranchAux.serve_stable hcreation hstart hjobs hserve
  have hsafe := BranchAux.recoverInterruptedOperations_does root tribiosDir workspacesDir (w := c.world.stop) hstopped.guarded
    (BranchAux.Settled.weaken hstopped.committed (fun _ _ => trivial))
  have hguarded : k.Guarded w'.git := by
    rcases (hsafe.reach hrecover).inv_or_post with h | ⟨_, -, h⟩
    · exact h
    · exact h
  exact hguarded.branches

/-! ## A branch that was there -/

namespace CreationWitness

/-- A configured Project at `/p`, mounted at `/m`; its repository has a branch `b` that is not checked out. -/
def world : World where
  host := {
    tree := ⟨[([[112]], ⟨.dir, ⟨3, 493, 0, 0, 0⟩⟩), ([[112], kGitDirName], ⟨.dir, ⟨4, 493, 0, 0, 0⟩⟩),
      ([[112], kTribiosDirName], ⟨.dir, ⟨5, 493, 0, 0, 0⟩⟩), ([[112], kTribiosDirName, baseName], ⟨.dir, ⟨6, 493, 0, 0, 0⟩⟩),
      ([[112], kTribiosDirName, workspacesName], ⟨.dir, ⟨7, 493, 0, 0, 0⟩⟩), ([[109]], ⟨.dir, ⟨8, 493, 0, 0, 0⟩⟩)]⟩
    nextIno := 9, now := 5, umask := 18 }
  store := { committed := { project := some ⟨[[112]], [[109]]⟩ } }
  git := { branches := [([98], 7)], mainHead := some [109], headCommit := some 7 }

def root : HostPath := [[112]]
def paths : ProjectPaths := ⟨root, [[109]]⟩
def manager : Manager := { paths := paths }
def started : World := ((startDaemon root).run exec world).2

theorem starts : (startDaemon root).run exec world = ((.up manager, none), started) := Prod.ext rfl rfl

theorem reach_started : Workers.Reach (lifecycle root (fun _ => hosts anyFaults) (hosts anyFaults) (fun _ => Around))
    ⟨.idle .down, [], world⟩ ⟨.idle (.up manager), [], started⟩ := by
  have hrun := Workers.runs_main exec (Y := lifecycle root (fun _ => hosts anyFaults) (hosts anyFaults) (fun _ => Around))
    (m := .down) (fun c w => hosts_exec _ c w) (startDaemon root) [] world
  rw [starts] at hrun
  exact (Workers.Reach.refl.start rfl).runs hrun

/-- The daemon stops after some calls of a creation, and recovery runs. -/
def stopped (name : Name) (calls : Nat) : World :=
  (((LifecycleRequest.create name []).serve manager).advance exec calls started).2.stop

def recovered (name : Name) (calls : Nat) : World :=
  ((recoverInterruptedOperations root paths.tribiosDir paths.workspacesDir).run exec (stopped name calls)).2

theorem serves (name : Name) (calls : Nat) :
    Workers.Runs (lifecycle root (fun _ => hosts recordsRead) (hosts anyFaults) (fun _ => AroundGit))
      ⟨.busy (.up manager) ((LifecycleRequest.create name []).serve manager), [], started⟩
      ⟨.busy (.up manager) (((LifecycleRequest.create name []).serve manager).advance exec calls started).1, [],
        (((LifecycleRequest.create name []).serve manager).advance exec calls started).2⟩ :=
  Workers.runs_advance exec (fun c w => hosts_exec _ c w) calls _ [] started

theorem recovers (name : Name) (calls : Nat) :
    Prog.Reach (hosts recordsRead) Eq (recoverInterruptedOperations root paths.tribiosDir paths.workspacesDir) (stopped name calls)
      (.ret ((recoverInterruptedOperations root paths.tribiosDir paths.workspacesDir).run exec (stopped name calls)).1)
      (recovered name calls) :=
  Prog.reach_run exec (fun c w => hosts_exec _ c w) _ _ .refl

/-- `ws.create` of `b` is stopped right after its journal record is written: recovery deletes the branch `b`. -/
theorem branch_lost : world.Configured ∧
    Workers.Reach (lifecycle root (fun _ => hosts anyFaults) (hosts anyFaults) (fun _ => Around))
      ⟨.idle .down, [], world⟩ ⟨.idle (.up manager), [], started⟩ ∧
    ∃ c, Workers.Runs (lifecycle root (fun _ => hosts recordsRead) (hosts anyFaults) (fun _ => AroundGit))
        ⟨.busy (.up manager) ((LifecycleRequest.create [98] []).serve manager), [], started⟩ c ∧
      ∃ p w', Prog.Reach (hosts recordsRead) Eq (recoverInterruptedOperations root paths.tribiosDir paths.workspacesDir)
          c.world.stop p w' ∧ ([98], 7) ∈ started.git.branches ∧ ([98], 7) ∉ w'.git.branches :=
  ⟨⟨_, rfl⟩, reach_started, _, serves [98] 4, _, _, recovers [98] 4, by decide +kernel, by decide +kernel⟩

/-- A creation on a new branch, stopped once Git has made the branch, leaves `b`. -/
theorem branch_kept : ([98], 7) ∈ (recovered [99] 30).git.branches := by
  refine creation_spares_branches ⟨_, rfl⟩ reach_started [99] [] ⟨Or.inl (Or.inl ?_), ?_⟩ (serves [99] 30) paths.tribiosDir
    paths.workspacesDir (recovers [99] 30) ([98], 7) (by decide +kernel)
  · decide +kernel
  · intro t ht o ho
    have hnone : started.store.visible.operations = [] ∧ started.store.committed.operations = [] := by decide +kernel
    rcases ht with rfl | rfl
    · rw [hnone.1] at ho
      cases ho
    · rw [hnone.2] at ho
      cases ho

end CreationWitness

end TribiosVfs

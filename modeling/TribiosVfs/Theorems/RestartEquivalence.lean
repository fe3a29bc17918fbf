import TribiosVfs.Lemmas.Programs
import TribiosVfs.Lemmas.Tombstones

/-!
# Tombstones in memory and in the store

The engine keeps its tombstones twice: in memory, and in the store for the next start. A finished record changes both, the one by
a prefix test on texts and the other by LIKE. As long as no deletion meets a tombstone that only LIKE takes, the two agree after
every operation, and an engine built anew serves the same view.
-/

namespace TribiosVfs

/-- The deletion of a record takes the same tombstones from the store as from memory: none of the stored ones, and not the one
the record adds, lies beneath the target only as LIKE compares texts. -/
def RecoveryOperation.LikeExact (operation : RecoveryOperation) (stored : Tables) : Prop :=
  operation.dropTargetTombstones = true →
    (∀ row ∈ stored.tombstones, row.1 = operation.workspace →
      LikeBeneath operation.target row.2 → isAtOrUnder operation.target row.2 = true) ∧
    (operation.addPathTombstone = true →
      LikeBeneath operation.target operation.path → isAtOrUnder operation.target operation.path = true)

instance (operation : RecoveryOperation) (stored : Tables) : Decidable (operation.LikeExact stored) := by
  unfold RecoveryOperation.LikeExact
  infer_instance

/-- A call that deletes no tombstones but those the engine deletes from its memory. -/
def Call.likeExact {β : Type} (c : Call β) (w : World) : Bool :=
  match c with
  | .finishRecoveryOperation operation => operation.LikeExact w.store.visible
  | _ => true

/-- The runs in which no store call fails and every deletion of tombstones is exact. -/
def likeExactHosts : Semantics Call Errno World := (hosts storeSound).restrict (fun c w => c.likeExact w = true)

/-- The operations whose paths hold no NUL byte. -/
def nulFreeOps (_ : Name) (_ : Engine) (_ : World) (op : EngineOp) : Prop := ∀ path ∈ op.paths, (0 : UInt8) ∉ path

/-- The tombstones in memory are those stored for the Workspace. -/
structure Coherent (workspace : Name) (e : Engine) (w : World) : Prop where
  named : e.workspace = workspace
  salted : e.inodeSalt = workspaceInodeSalt workspace
  closed : w.store.openTx = none
  stored : ∀ p, (workspace, p) ∈ w.store.committed.tombstones ↔ p ∈ e.tombstones
  canonical : ∀ p ∈ e.tombstones, p.Canonical

/-- Others touch only the rows of their own Workspaces, and leave no transaction open. -/
def tombstoneContract (workspace : Name) : Contract World where
  rely w w' := w.store.openTx = none → w'.store.openTx = none ∧
    ∀ p, (workspace, p) ∈ w'.store.committed.tombstones ↔ (workspace, p) ∈ w.store.committed.tombstones
  guar w w' := w.store.openTx = none → w'.store.openTx = none ∧
    ∀ other, other ≠ workspace → ∀ p, (other, p) ∈ w'.store.committed.tombstones ↔ (other, p) ∈ w.store.committed.tombstones
  inv _ := True
  rely_refl _ h := ⟨h, fun _ => Iff.rfl⟩
  rely_trans _ _ _ h h' ho := ⟨(h' (h ho).1).1, fun p => ((h' (h ho).1).2 p).trans ((h ho).2 p)⟩

theorem Coherent.of_rely {workspace : Name} {e : Engine} {w w' : World} (h : Coherent workspace e w)
    (hR : (tombstoneContract workspace).rely w w') : Coherent workspace e w' :=
  ⟨h.named, h.salted, (hR h.closed).1, fun p => ((hR h.closed).2 p).trans (h.stored p), h.canonical⟩

/-- A call that touches no tombstone leaves every row of the table, and no transaction open. -/
theorem step_keepsTombstones {β : Type} {c : Call β} {w w' : World} {r : Except Errno β} (hc : c.keepsTombstones = true)
    (ho : w.store.openTx = none) (h : (hosts storeSound).step c w r w') :
    w'.store.openTx = none ∧ w'.store.committed.tombstones = w.store.committed.tombstones := by
  cases hs : c.isStore with
  | false => rw [step_store hs h]; exact ⟨ho, rfl⟩
  | true =>
    rcases h with h | ⟨-, hf, -⟩
    · have hw : w' = (exec c w).2 := by rw [h]
      rw [hw]
      cases c <;> first
        | (cases hs; done)
        | (cases hc; done)
        | simp [exec, World.onStore, Store.update, ho, Tables.beginRecoveryOperation, Tables.setRecoveryOperationPhase,
            Tables.abandonRecoveryOperation, Tables.saveWorkspaceRecord, Tables.setWorkspaceState,
            Tables.setWorkspaceReclamationDuration]
    · rw [show c.isStore = false from hf] at hs
      cases hs

namespace RestartAux

variable {workspace : Name} {α β : Type}

/-- What a computation keeps: coherence, from wherever it starts. -/
def KeepsCoherent (workspace : Name) (m : EngineM α) : Prop :=
  ∀ e w, Coherent workspace e w →
    (m e).Safe likeExactHosts (tombstoneContract workspace) (fun r w' => Coherent workspace r.2 w') w

/-- A computation that touches no tombstone keeps coherence and what it returns is of its own choosing. -/
theorem safe_of_quiet {m : EngineM α} {P : α → Prop} (hq : m.Quiet (·.keepsTombstones = true)) (hP : m.Returns P)
    {e : Engine} {w : World} (h : Coherent workspace e w) :
    (m e).Safe likeExactHosts (tombstoneContract workspace)
      (fun r w' => (e.SameView r.2 ∧ ∀ a, r.1 = .ok a → P a) ∧ Coherent workspace r.2 w') w := by
  have hsafe := ((hq e).and (hP e)).safe (S := likeExactHosts) (C := tombstoneContract workspace) (s := w)
    (P := fun w' => w'.store.openTx = none ∧ ∀ p, (workspace, p) ∈ w'.store.committed.tombstones ↔ p ∈ e.tombstones)
    ?_ ?_ (fun _ _ => trivial) ⟨h.closed, h.stored⟩
  · refine hsafe.mono (fun r w' ⟨⟨hv, hr⟩, ho, hs⟩ => ⟨⟨hv, hr⟩, hv.workspace.trans h.named, hv.inodeSalt.trans h.salted, ho, ?_, ?_⟩)
    · rw [hv.tombstones]
      exact hs
    · rw [hv.tombstones]
      exact h.canonical
  · intro γ c s r s' hc ⟨ho, hs⟩ hstep
    obtain ⟨ho', hs'⟩ := step_keepsTombstones hc ho hstep.2
    refine ⟨fun _ => ⟨ho', fun other _ p => by rw [hs']⟩, ho', fun p => by rw [hs']; exact hs p⟩
  · exact fun s s' ⟨ho, hs⟩ hR => ⟨(hR ho).1, fun p => ((hR ho).2 p).trans (hs p)⟩

theorem keepsCoherent_of_quiet {m : EngineM α} (hq : m.Quiet (·.keepsTombstones = true)) : KeepsCoherent workspace m := by
  intro e w h
  have hP : m.Returns (fun _ => True) := fun e => (Prog.only_trivial (m e)).mono (fun _ h => h) (fun _ _ _ _ => trivial)
  exact (safe_of_quiet hq hP h).mono (fun r w' hr => hr.2)

theorem keepsCoherent_bind {m : EngineM α} {f : α → EngineM β} (hm : KeepsCoherent workspace m)
    (hf : ∀ a, KeepsCoherent workspace (f a)) : KeepsCoherent workspace (m >>= f) := by
  intro e w h
  refine (hm e w h).bind (fun r w' hr => ?_)
  obtain ⟨r, e'⟩ := r
  cases r with
  | ok a => exact hf a e' w' hr
  | error x =>
    exact fun w'' hR => hr.of_rely hR

theorem keepsCoherent_attempt {m : EngineM α} (hm : KeepsCoherent workspace m) : KeepsCoherent workspace m.attempt := by
  intro e w h
  exact (hm e w h).bind (fun r w' hr w'' hR => hr.of_rely hR)

theorem keepsCoherent_onlyIf {c : Prop} [Decidable c] {m : EngineM Unit} (hm : KeepsCoherent workspace m) :
    KeepsCoherent workspace (EngineM.onlyIf c m) := by
  unfold EngineM.onlyIf
  split
  · exact hm
  · exact keepsCoherent_of_quiet (EngineM.quiet_pure ())

/-! ### The finish of a record -/

/-- The paths of a record that changes tombstones are paths of the host. -/
def OrdinaryRecord (operation : RecoveryOperation) : Prop :=
  (operation.addPathTombstone = true → Ordinary operation.path) ∧
    (operation.dropTargetTombstones = true → Ordinary operation.target)

/-- The two changes of a finished record agree when its deletion is exact. -/
theorem coherent_finish {e : Engine} {w : World} {operation : RecoveryOperation} (h : Coherent workspace e w)
    (hw : operation.workspace = workspace) (hord : OrdinaryRecord operation) (hexact : operation.LikeExact w.store.visible)
    (p : RelPath) :
    (workspace, p) ∈ (w.store.committed.finishRecoveryOperation operation).tombstones ↔
      p ∈ (e.finishTombstones operation).tombstones := by
  have hvis : w.store.visible = w.store.committed := by rw [Store.visible, h.closed]; rfl
  have hadd : ∀ q, q ∈ (if operation.addPathTombstone ∧ operation.path ∉ e.tombstones then e.tombstones ++ [operation.path]
      else e.tombstones) ↔ (workspace, q) ∈ w.store.committed.tombstones ∨
        (operation.addPathTombstone = true ∧ q = operation.path) := by
    intro q
    rw [h.stored]
    split
    · rename_i hc
      simp [hc.1]
    · rename_i hc
      constructor
      · exact Or.inl
      · rintro (hq | ⟨ha, rfl⟩)
        · exact hq
        · by_contra hq
          exact hc ⟨ha, hq⟩
  rw [mem_finishRecoveryOperation, Engine.finishTombstones]
  have hbind : (operation.addPathTombstone = true ∧ workspace = operation.workspace ∧ p = bindText operation.path) ↔
      (operation.addPathTombstone = true ∧ p = operation.path) := by
    constructor
    · rintro ⟨ha, -, hp⟩
      exact ⟨ha, by rw [hp, bindText_eq_self (hord.1 ha)]⟩
    · rintro ⟨ha, hp⟩
      exact ⟨ha, hw.symm, by rw [hp, bindText_eq_self (hord.1 ha)]⟩
  rw [hbind]
  cases hd : operation.dropTargetTombstones with
  | false => simpa [hd] using (hadd p).symm
  | true =>
    simp only [hw.symm, forall_const, if_true, List.mem_filter, Bool.not_eq_true', hadd]
    refine and_congr_right (fun hp => ?_)
    have hcan : p.Canonical := by
      rcases hp with hp | ⟨ha, rfl⟩
      · exact h.canonical p ((h.stored p).mp (hw ▸ hp))
      · exact (hord.1 ha).1
    have hfold : LikeBeneath operation.target p → isAtOrUnder operation.target p = true := by
      intro hf
      rcases hp with hp | ⟨ha, rfl⟩
      · exact (hexact hd).1 _ (by rw [hvis]; exact hp) rfl hf
      · exact (hexact hd).2 ha hf
    rw [sqlAtOrUnder_eq (hord.2 hd) hcan hfold]

theorem canonical_finish {e : Engine} {operation : RecoveryOperation} (h : ∀ p ∈ e.tombstones, p.Canonical)
    (hord : OrdinaryRecord operation) : ∀ p ∈ (e.finishTombstones operation).tombstones, p.Canonical := by
  have hadd : ∀ p ∈ (if operation.addPathTombstone ∧ operation.path ∉ e.tombstones then e.tombstones ++ [operation.path]
      else e.tombstones), p.Canonical := by
    split
    · rename_i hc
      intro p hp
      rcases List.mem_append.mp hp with hp | hp
      · exact h p hp
      · rw [List.mem_singleton.mp hp]
        exact (hord.1 hc.1).1
    · exact h
  intro p hp
  unfold Engine.finishTombstones at hp
  simp only at hp
  split at hp
  · exact hadd p (List.mem_filter.mp hp).1
  · exact hadd p hp

/-- The finish of a record, in the store and then in memory. -/
theorem keepsCoherent_finish {operation : RecoveryOperation} (hw : operation.workspace = workspace)
    (hord : OrdinaryRecord operation) : KeepsCoherent workspace (finishOperation operation) := by
  intro e w h w₁ hR
  have h₁ : Coherent workspace e w₁ := h.of_rely hR
  refine ⟨trivial, fun r w₂ hstep => ?_⟩
  obtain ⟨hexact, hstep⟩ := hstep
  rw [Call.likeExact, decide_eq_true_eq] at hexact
  rcases hstep with hstep | ⟨-, hf, -⟩
  · have hfin := Store.finish_ok h₁.closed operation
    simp only [exec, hfin, Prod.mk.injEq] at hstep
    obtain ⟨rfl, rfl⟩ := hstep
    refine ⟨fun _ => ⟨h₁.closed, fun other hother p => ?_⟩, fun w₃ hR₃ => ?_⟩
    · rw [mem_finishRecoveryOperation, hw]
      simp [hother]
    · obtain ⟨ho₃, hs₃⟩ := hR₃ h₁.closed
      exact ⟨h₁.named, h₁.salted, ho₃, fun p => (hs₃ p).trans (coherent_finish h₁ hw hord hexact p),
        canonical_finish h₁.canonical hord⟩
  · cases hf

/-! ### Publications and removals -/

theorem keepsCoherent_finishPublication {operation : RecoveryOperation} (hw : operation.workspace = workspace)
    (hord : OrdinaryRecord operation) : KeepsCoherent workspace (finishPublication operation) := by
  refine keepsCoherent_bind (keepsCoherent_of_quiet (EngineM.quiet_reads fun e =>
    calls_orFail (syncParentDirectory_reads _).keeps)) (fun _ => ?_)
  refine keepsCoherent_bind (keepsCoherent_of_quiet (EngineM.quiet_reads fun e =>
    calls_onlyIf (removeRenamedSource_keeps e _))) (fun _ => ?_)
  refine keepsCoherent_bind (keepsCoherent_finish hw hord) (fun _ => ?_)
  exact keepsCoherent_of_quiet (EngineM.quiet_reads fun e => calls_ignore (calls_call rfl))

theorem keepsCoherent_publish {operation : RecoveryOperation} {prepareStage : Engine → HostPath → Io α}
    (hp : ∀ e stage, Calls (·.keepsTombstones = true) (prepareStage e stage)) (hw : operation.workspace = workspace)
    (hord : OrdinaryRecord operation) : KeepsCoherent workspace (publishStagedOperation operation prepareStage) := by
  intro e w h
  refine (safe_of_quiet (beginPublication_quiet operation hp) (beginPublication_returns operation prepareStage) h).bind ?_
  rintro ⟨r, e'⟩ w' ⟨⟨-, hr⟩, h'⟩
  cases r with
  | error x => exact keepsCoherent_of_quiet (EngineM.quiet_fail x) e' w' h'
  | ok begun =>
    obtain ⟨id, hid⟩ := hr begun rfl
    refine keepsCoherent_bind (keepsCoherent_of_quiet (EngineM.quiet_reads fun e => publishStage_keeps e _)) (fun _ =>
      keepsCoherent_bind (keepsCoherent_finishPublication ?_ ?_) (fun _ => keepsCoherent_of_quiet (EngineM.quiet_pure _)))
      e' w' h'
    · rw [hid]; exact hw
    · rw [hid]; exact hord

theorem keepsCoherent_publishAt {kind : OperationKind} {relative : RelPath} {prepareStage : Engine → HostPath → Io α}
    (hp : ∀ e stage, Calls (·.keepsTombstones = true) (prepareStage e stage)) :
    KeepsCoherent workspace (publishAt kind relative prepareStage) := by
  refine keepsCoherent_bind (keepsCoherent_of_quiet (createUpperParentDirectories_quiet _ _)) (fun _ e w h => ?_)
  exact keepsCoherent_publish hp h.named ⟨fun ha => absurd ha Bool.false_ne_true, fun hd => absurd hd Bool.false_ne_true⟩
    e w h

theorem copyAndChange_keeps {relative : RelPath} {change : HostPath → Io α}
    (hc : ∀ stage, Calls (·.keepsTombstones = true) (change stage)) (e : Engine) (stage : HostPath) :
    Calls (·.keepsTombstones = true) (copyAndChange relative change e stage) :=
  calls_bind (materialize_keeps e relative stage) (fun _ => hc stage)

theorem keepsCoherent_remove {kind : OperationKind} {relative : RelPath} {directory : Bool} (hr : Ordinary relative) :
    KeepsCoherent workspace (removeVisibleEntryAtomically kind relative directory) := by
  intro e w h
  refine (safe_of_quiet (beginRemoval_quiet (e.operation kind relative)) (beginRemoval_returns _) h).bind ?_
  rintro ⟨r, e'⟩ w' ⟨⟨-, hr'⟩, h'⟩
  cases r with
  | error x => exact keepsCoherent_of_quiet (EngineM.quiet_fail x) e' w' h'
  | ok operation =>
    obtain ⟨id, b, rfl⟩ := hr' operation rfl
    exact keepsCoherent_bind (keepsCoherent_of_quiet (EngineM.quiet_reads fun e => removeUpper_keeps e _ _)) (fun _ =>
      keepsCoherent_finish h.named ⟨fun _ => hr, fun hd => absurd hd Bool.false_ne_true⟩) e' w' h'

/-! ### Operations -/

theorem keepsCoherent_reads {f : Engine → Io α} (hf : ∀ e, Calls (·.reads = true) (f e)) :
    KeepsCoherent workspace (EngineM.reads f) :=
  keepsCoherent_of_quiet (EngineM.quiet_reads fun e => (hf e).keeps)

theorem keepsCoherent_refuse (c : Prop) [Decidable c] (x : Errno) : KeepsCoherent workspace (EngineM.refuse c x) :=
  keepsCoherent_of_quiet (EngineM.quiet_refuse c x)

theorem keepsCoherent_pure (a : α) : KeepsCoherent workspace (pure a : EngineM α) :=
  keepsCoherent_of_quiet (EngineM.quiet_pure a)

theorem keepsCoherent_fail (x : Errno) : KeepsCoherent workspace (EngineM.fail x : EngineM α) :=
  keepsCoherent_of_quiet (EngineM.quiet_fail x)

theorem keepsCoherent_memory {f : Engine → Except Errno α × Engine} (hf : ∀ e : Engine, e.SameView (f e).2) :
    KeepsCoherent workspace (fun e => .ret (f e)) :=
  keepsCoherent_of_quiet (fun e => hf e)

theorem keepsCoherent_found {relative : RelPath} {f : Option (Layer × Node) → EngineM α}
    (hf : ∀ found, KeepsCoherent workspace (f found)) :
    KeepsCoherent workspace (EngineM.reads (findVisibleEntryLayer relative) >>= f) :=
  keepsCoherent_bind (keepsCoherent_reads (findVisibleEntryLayer_reads relative)) hf

theorem keepsCoherent_openHandle (path : Bytes) (flags : OpenFlags) : KeepsCoherent workspace (openHandle path flags) := by
  refine keepsCoherent_bind (keepsCoherent_refuse _ _) (fun _ => keepsCoherent_bind ?_ (fun layer =>
    keepsCoherent_bind ?_ (fun layer => keepsCoherent_bind (keepsCoherent_reads fun _ => calls_call rfl) (fun backing =>
      keepsCoherent_memory (fun _ => ⟨rfl, rfl, rfl, rfl, rfl⟩)))))
  · refine keepsCoherent_found (fun found => ?_)
    rcases found with _ | ⟨layer, st⟩
    · exact keepsCoherent_bind (keepsCoherent_refuse _ _) (fun _ =>
        keepsCoherent_bind (keepsCoherent_publishAt (fun _ _ => calls_call rfl)) (fun _ => keepsCoherent_pure _))
    · exact keepsCoherent_bind (keepsCoherent_refuse _ _) (fun _ =>
        keepsCoherent_bind (keepsCoherent_refuse _ _) (fun _ => keepsCoherent_pure _))
  · unfold truncateForOpen
    split
    · exact keepsCoherent_bind (keepsCoherent_publishAt (copyAndChange_keeps fun _ => calls_call rfl))
        (fun _ => keepsCoherent_pure _)
    · exact keepsCoherent_pure _

theorem keepsCoherent_writeHandle (fd : Int) (data : Bytes) (offset : Nat) :
    KeepsCoherent workspace (writeHandle fd data offset) := by
  intro e w h
  unfold writeHandle
  split
  · exact keepsCoherent_fail .EBADF e w h
  · rename_i handle _
    refine keepsCoherent_bind (keepsCoherent_refuse _ _) (fun _ => keepsCoherent_bind (keepsCoherent_publishAt
      (copyAndChange_keeps fun _ => calls_bind (calls_call rfl) (fun _ => calls_call rfl))) (fun _ =>
        keepsCoherent_bind (keepsCoherent_bind (keepsCoherent_attempt (keepsCoherent_reads fun _ => calls_call rfl))
          (fun r => ?_)) (fun _ => keepsCoherent_pure _))) e w h
    cases r with
    | ok file => exact keepsCoherent_memory (fun _ => ⟨rfl, rfl, rfl, rfl, rfl⟩)
    | error x =>
      exact keepsCoherent_bind (keepsCoherent_memory (fun _ => ⟨rfl, rfl, rfl, rfl, rfl⟩)) (fun _ => keepsCoherent_fail x)

theorem keepsCoherent_withHandle {fd : Int} {m : EngineM α} (hm : KeepsCoherent workspace m) :
    KeepsCoherent workspace (withHandle fd m) :=
  keepsCoherent_bind (keepsCoherent_attempt hm) (fun _ => keepsCoherent_bind
    (keepsCoherent_memory (fun _ => ⟨rfl, rfl, rfl, rfl, rfl⟩)) (fun _ => keepsCoherent_memory .refl))

theorem keepsCoherent_publishNew {kind : OperationKind} {relative : RelPath} {prepareStage : HostPath → Io Unit}
    (hp : ∀ stage, Calls (·.keepsTombstones = true) (prepareStage stage)) :
    KeepsCoherent workspace (publishNew kind relative prepareStage) :=
  keepsCoherent_bind (keepsCoherent_refuse _ _) (fun _ => keepsCoherent_found (fun _ =>
    keepsCoherent_bind (keepsCoherent_refuse _ _) (fun _ => keepsCoherent_publishAt (fun _ stage => hp stage))))

theorem keepsCoherent_changeVisible {kind : OperationKind} {relative : RelPath} {change : HostPath → Io Unit}
    (hc : ∀ stage, Calls (·.keepsTombstones = true) (change stage)) :
    KeepsCoherent workspace (changeVisible kind relative change) :=
  keepsCoherent_found (fun _ => keepsCoherent_bind (keepsCoherent_refuse _ _) (fun _ =>
    keepsCoherent_publishAt (copyAndChange_keeps hc)))

theorem keepsCoherent_renameEntry {source target : RelPath} (hs : Ordinary source) (ht : Ordinary target) :
    KeepsCoherent workspace (renameEntry source target) := by
  refine keepsCoherent_found (fun found => ?_)
  rcases found with _ | ⟨layer, st⟩
  · exact keepsCoherent_fail _
  · refine keepsCoherent_bind (keepsCoherent_found (fun found => ?_)) (fun _ =>
      keepsCoherent_bind (keepsCoherent_of_quiet (createUpperParentDirectories_quiet _ _)) (fun _ =>
        keepsCoherent_bind (keepsCoherent_reads (baseEntryVisible_reads source)) (fun b e w h =>
          keepsCoherent_publish (fun e stage => materialize_keeps e source stage) h.named
            ⟨fun _ => hs, fun _ => ht⟩ e w h)))
    rcases found with _ | ⟨layer', st'⟩
    · exact keepsCoherent_pure _
    · exact keepsCoherent_bind (keepsCoherent_refuse _ _) (fun _ => keepsCoherent_bind (keepsCoherent_refuse _ _) (fun _ =>
        keepsCoherent_onlyIf (keepsCoherent_bind (keepsCoherent_reads (mergeVisibleDirectoryEntries_reads target))
          (fun _ => keepsCoherent_refuse _ _))))

theorem keepsCoherent_fsyncPath (path : Bytes) (dataOnly directory : Bool) :
    KeepsCoherent workspace (fsyncPath path dataOnly directory) := by
  refine keepsCoherent_reads (fun e => calls_bind (findVisibleEntryLayer_reads _ e) (fun found => ?_))
  rcases found with _ | ⟨layer, st⟩
  · exact calls_fail _
  · exact calls_bind (calls_refuse _ _) (fun _ => calls_bind (calls_ite (calls_call rfl) (calls_call rfl)) (fun _ =>
      calls_onlyIf (calls_orFail (syncParentDirectory_reads _))))

theorem keepsCoherent_fsyncHandle (fd : Int) (dataOnly : Bool) : KeepsCoherent workspace (fsyncHandle fd dataOnly) := by
  refine keepsCoherent_reads (fun e => ?_)
  split
  · exact calls_fail _
  · refine calls_bind (calls_call rfl) (fun _ => calls_bind (calls_lstat rfl) (fun found => ?_))
    cases found with
    | none => exact calls_pure _
    | some _ => exact calls_orFail (syncParentDirectory_reads _)

theorem keepsCoherent_readdir (path : Bytes) : KeepsCoherent workspace (readdir path) := by
  intro e w h
  unfold readdir
  simp only
  split
  · rename_i cached _
    exact keepsCoherent_memory (f := fun e => (.ok cached.2, e)) .refl e w h
  · exact keepsCoherent_bind (keepsCoherent_reads (computeDirectoryEntries_reads _)) (fun _ => keepsCoherent_bind
      (keepsCoherent_memory (fun _ => ⟨rfl, rfl, rfl, rfl, rfl⟩)) (fun _ => keepsCoherent_pure _)) e w h

theorem keepsCoherent_getattr (path : Bytes) : KeepsCoherent workspace (getattr path) := by
  refine keepsCoherent_reads (fun e => calls_bind (findVisibleEntryLayer_reads _ e) (fun found => ?_))
  rcases found with _ | ⟨layer, st⟩
  · exact calls_fail _
  · exact calls_pure _

theorem keepsCoherent_readlink (path : Bytes) : KeepsCoherent workspace (readlink path) := by
  refine keepsCoherent_reads (fun e => calls_bind (findVisibleEntryLayer_reads _ e) (fun found => ?_))
  rcases found with _ | ⟨layer, st⟩
  · exact calls_fail _
  · exact calls_bind (calls_refuse _ _) (fun _ => calls_orFail (calls_call rfl))

theorem keepsCoherent_readHandle (fd : Int) (size offset : Nat) : KeepsCoherent workspace (readHandle fd size offset) := by
  refine keepsCoherent_reads (fun e => ?_)
  split
  · exact calls_fail _
  · exact calls_call rfl

theorem keepsCoherent_unlink {path : Bytes} (h0 : (0 : UInt8) ∉ path) : KeepsCoherent workspace (unlink path) := by
  refine keepsCoherent_bind (keepsCoherent_refuse _ _) (fun _ => keepsCoherent_found (fun found => ?_))
  rcases found with _ | ⟨layer, st⟩
  · exact keepsCoherent_fail _
  · exact keepsCoherent_bind (keepsCoherent_refuse _ _) (fun _ => keepsCoherent_remove (normalizeRelative_ordinary h0))

theorem keepsCoherent_rmdir {path : Bytes} (h0 : (0 : UInt8) ∉ path) : KeepsCoherent workspace (rmdir path) := by
  refine keepsCoherent_bind (keepsCoherent_refuse _ _) (fun _ => keepsCoherent_found (fun found => ?_))
  rcases found with _ | ⟨layer, st⟩
  · exact keepsCoherent_fail _
  · exact keepsCoherent_bind (keepsCoherent_refuse _ _) (fun _ => keepsCoherent_bind
      (keepsCoherent_reads (mergeVisibleDirectoryEntries_reads _)) (fun _ => keepsCoherent_bind (keepsCoherent_refuse _ _)
        (fun _ => keepsCoherent_remove (normalizeRelative_ordinary h0))))

theorem keepsCoherent_rename {fromPath toPath : Bytes} (hs : (0 : UInt8) ∉ fromPath) (ht : (0 : UInt8) ∉ toPath) :
    KeepsCoherent workspace (rename fromPath toPath) := by
  refine keepsCoherent_bind (keepsCoherent_refuse _ _) (fun _ => ?_)
  split
  · exact keepsCoherent_pure _
  · exact keepsCoherent_bind (keepsCoherent_refuse _ _) (fun _ =>
      keepsCoherent_renameEntry (normalizeRelative_ordinary hs) (normalizeRelative_ordinary ht))

theorem keepsCoherent_truncate (path : Bytes) (size : Nat) : KeepsCoherent workspace (truncate path size) := by
  refine keepsCoherent_found (fun found => ?_)
  rcases found with _ | ⟨layer, st⟩
  · exact keepsCoherent_fail _
  · exact keepsCoherent_bind (keepsCoherent_refuse _ _) (fun _ =>
      keepsCoherent_publishAt (copyAndChange_keeps fun _ => calls_call rfl))

/-- Every operation on paths without a NUL byte keeps the two sets of tombstones equal. -/
theorem keepsCoherent_run (op : EngineOp) (h : ∀ path ∈ op.paths, (0 : UInt8) ∉ path) :
    KeepsCoherent workspace op.run := by
  have reply : ∀ {γ : Type} {m : EngineM γ} (f : γ → Reply), KeepsCoherent workspace m →
      KeepsCoherent workspace (do let a ← m; pure (f a)) := fun f hm => keepsCoherent_bind hm (fun _ => keepsCoherent_pure _)
  have effect : ∀ {m : EngineM Unit}, KeepsCoherent workspace m → KeepsCoherent workspace (do m; pure Reply.done) :=
    fun hm => keepsCoherent_bind hm (fun _ => keepsCoherent_pure _)
  cases op with
  | getattr path => exact reply .attr (keepsCoherent_getattr path)
  | readdir path => exact reply .entries (keepsCoherent_readdir path)
  | readlink path => exact reply .data (keepsCoherent_readlink path)
  | readFile path size offset =>
    exact reply .data (keepsCoherent_bind (keepsCoherent_openHandle path _) (fun fd =>
      keepsCoherent_withHandle (keepsCoherent_readHandle fd size offset)))
  | writeFile path data offset =>
    exact reply .size (keepsCoherent_bind (keepsCoherent_openHandle path _) (fun fd =>
      keepsCoherent_withHandle (keepsCoherent_writeHandle fd data offset)))
  | openHandle path flags => exact reply .handle (keepsCoherent_openHandle path flags)
  | readHandle fd size offset => exact reply .data (keepsCoherent_readHandle fd size offset)
  | writeHandle fd data offset => exact reply .size (keepsCoherent_writeHandle fd data offset)
  | fsyncHandle fd dataOnly => exact effect (keepsCoherent_fsyncHandle fd dataOnly)
  | fsyncPath path dataOnly directory => exact effect (keepsCoherent_fsyncPath path dataOnly directory)
  | closeHandle fd => exact effect (keepsCoherent_memory (fun _ => ⟨rfl, rfl, rfl, rfl, rfl⟩))
  | create path mode => exact effect (keepsCoherent_publishNew fun _ => calls_call rfl)
  | mkdir path mode => exact effect (keepsCoherent_publishNew fun _ => calls_call rfl)
  | symlink target linkPath => exact effect (keepsCoherent_publishNew fun _ => calls_call rfl)
  | unlink path => exact effect (keepsCoherent_unlink (h path (by simp [EngineOp.paths])))
  | rmdir path => exact effect (keepsCoherent_rmdir (h path (by simp [EngineOp.paths])))
  | rename fromPath toPath =>
    exact effect (keepsCoherent_rename (h fromPath (by simp [EngineOp.paths])) (h toPath (by simp [EngineOp.paths])))
  | chmod path mode => exact effect (keepsCoherent_changeVisible fun _ => calls_call rfl)
  | truncate path size => exact effect (keepsCoherent_truncate path size)
  | utimens path atime mtime => exact effect (keepsCoherent_changeVisible fun _ => calls_call rfl)

/-- Lookups read the tombstones only as a set. -/
theorem baseIsVisible_congr {t t' : List RelPath} (h : ∀ p, p ∈ t ↔ p ∈ t') (p : RelPath) :
    baseIsVisible t p = baseIsVisible t' p := by
  unfold baseIsVisible
  congr 1
  funext q
  simp only [h q]

end RestartAux

open RestartAux

/-- What an engine's lookups do, path by path. -/
def Engine.SameLookups (e e' : Engine) : Prop :=
  ∀ p, findVisibleEntryLayer p e = findVisibleEntryLayer p e' ∧ computeDirectoryEntries p e = computeDirectoryEntries p e'

theorem sameLookups_of_tombstones {e e' : Engine} (hb : e.baseDir = e'.baseDir) (hu : e.upperDir = e'.upperDir)
    (hi : e.inodeSalt = e'.inodeSalt) (ht : ∀ p, p ∈ e.tombstones ↔ p ∈ e'.tombstones) : e.SameLookups e' := by
  have hfind : ∀ p, findVisibleEntryLayer p e = findVisibleEntryLayer p e' := by
    intro p
    unfold findVisibleEntryLayer Engine.upperPath Engine.basePath
    rw [hb, hu, baseIsVisible_congr ht p]
  have hmerge : ∀ p path b entries, mergeDirectory p path b entries e = mergeDirectory p path b entries e' := by
    intro p path b entries
    unfold mergeDirectory Engine.workspaceInodeFor
    simp only [hi, ht]
  intro p
  refine ⟨hfind p, ?_⟩
  unfold computeDirectoryEntries mergeVisibleDirectoryEntries mergeBaseDirectory Engine.upperPath Engine.basePath
  simp only [hfind p, hmerge, hb, hu, baseIsVisible_congr ht p]

/-- The daemon when its engines have just been built over a store. -/
def Daemon.start (baseDir upperDir : Name → HostPath) (w : World) : Daemon :=
  ⟨fun workspace => .idle (.construct workspace (baseDir workspace) (upperDir workspace) w.store), w⟩

theorem loadWorkspaceTombstones_visible {w : World} (h : w.store.openTx = none) {workspace : Name} {p : RelPath} :
    p ∈ w.store.visible.loadWorkspaceTombstones workspace ↔ (workspace, p) ∈ w.store.committed.tombstones := by
  rw [mem_loadWorkspaceTombstones, Store.visible, h, Option.getD_none]

/-- Restart equivalence of tombstones: whatever operations run in whatever Workspaces, call by call, and whatever system calls
fail, an idle engine's tombstones are the stored ones and an engine built anew looks everything up alike, provided that no
rename's deletion meets a tombstone that lies beneath its target only as LIKE compares. For one deletion and one path that proviso
is exact. -/
theorem restart_equivalence {baseDir upperDir : Name → HostPath} {w : World} {d : Daemon} (hopen : w.store.openTx = none)
    (hcan : ∀ row ∈ w.store.committed.tombstones, row.2.Canonical)
    (hreach : Service.Reach likeExactHosts (offersOf nulFreeOps) (Daemon.start baseDir upperDir w) d) :
    (∀ root path : RelPath, Ordinary root → path.Canonical →
      (sqlAtOrUnder root path = isAtOrUnder root path ↔ (LikeBeneath root path → isAtOrUnder root path = true))) ∧
    ∀ (workspace : Name) (e : Engine), d.procs workspace = .idle e →
      (∀ p, p ∈ e.tombstones ↔ p ∈ d.world.store.visible.loadWorkspaceTombstones workspace) ∧
      e.SameLookups (Engine.construct workspace e.baseDir e.upperDir d.world.store) := by
  refine ⟨fun root path hr hp => ⟨fun h hf => ?_, sqlAtOrUnder_eq hr hp⟩, ?_⟩
  · rw [← h, sqlAtOrUnder_iff hr]
    exact Or.inr hf
  · intro workspace e hidle
    have hall := Service.safe (C := tombstoneContract) (I := Coherent) ?_ ?_ ?_ ?_ hreach workspace
    · rw [hidle] at hall
      have ht : ∀ p, p ∈ e.tombstones ↔ p ∈ d.world.store.visible.loadWorkspaceTombstones workspace := by
        intro p
        rw [loadWorkspaceTombstones_visible hall.closed, hall.stored]
      exact ⟨ht, sameLookups_of_tombstones rfl rfl hall.salted ht⟩
    · intro i j hij s s' hg ho
      exact ⟨(hg ho).1, (hg ho).2 j (Ne.symm hij)⟩
    · intro i m s s' h hR
      exact h.of_rely hR
    · rintro i m s p h ⟨op, hop, rfl⟩
      exact (keepsCoherent_run op hop m s h).bind (fun r s' hr s'' hR => hr.of_rely hR)
    · intro i
      refine ⟨rfl, rfl, hopen, fun p => (loadWorkspaceTombstones_visible hopen).symm, fun p hp => ?_⟩
      exact hcan _ ((loadWorkspaceTombstones_visible hopen).mp hp)

namespace RestartWitness

/-- A Base directory `A` with a file `b` in it, and one Workspace. -/
def world : World where
  host := {
    tree := ⟨[([[116]], ⟨.dir, ⟨3, 493, 0, 0, 0⟩⟩), ([[116], [98]], ⟨.dir, ⟨4, 493, 0, 0, 0⟩⟩),
      ([[116], [119]], ⟨.dir, ⟨5, 493, 0, 0, 0⟩⟩), ([[116], [119], [117]], ⟨.dir, ⟨6, 493, 0, 0, 0⟩⟩),
      ([[116], [98], [65]], ⟨.dir, ⟨7, 493, 0, 0, 0⟩⟩), ([[116], [98], [65], [98]], ⟨.file [1], ⟨8, 420, 0, 0, 0⟩⟩)]⟩
    nextIno := 9, now := 5, umask := 18 }
  store := { committed := {} }

def baseDir (_ : Name) : HostPath := [[116], [98]]
def upperDir (_ : Name) : HostPath := [[116], [119], [117]]
def workspace : Name := [87]
def engine : Engine := .construct workspace (baseDir workspace) (upperDir workspace) world.store

/-- `rename("A/b", "a")`: the record's own tombstone `A/b` lies beneath `a` for LIKE, which leaves case out. -/
def renameUp : EngineOp := .rename [65, 47, 98] [97]
/-- `unlink("A/b")`. -/
def unlinkFile : EngineOp := .unlink [65, 47, 98]

/-- What an engine and the store are left with when an operation runs alone. -/
def after (op : EngineOp) : Engine × World := (op.program engine).run exec world

/-- An operation that meets a condition throughout can be run by the idle engine. -/
theorem reach_after {S : Semantics Call Errno World} {ok : {γ : Type} → Call γ → World → Bool} {op : EngineOp}
    (hexec : ∀ {γ : Type} (c : Call γ) (w : World), ok c w = true → S.step c w (exec c w).1 (exec c w).2)
    (hop : nulFreeOps workspace engine world op) (h : ((op.program engine).runIf ok exec world).isSome = true) :
    ∃ d : Daemon, Service.Reach S (offersOf nulFreeOps) (Daemon.start baseDir upperDir world) d ∧
      d.procs workspace = .idle (after op).1 ∧ d.world = (after op).2 := by
  have hoff : offersOf nulFreeOps workspace engine world (op.program engine) := ⟨op, hop, rfl⟩
  have hreach := Service.reach_offered hexec (c := Daemon.start baseDir upperDir world) .refl rfl hoff
    (Prog.runIf_eq_run _ _ h)
  exact ⟨_, hreach, by simp only [Service.set_procs_self]; rfl, rfl⟩

/-- The rename returns with its source's tombstone in memory and not in the store, so a restart brings `A/b` back. -/
theorem tombstone_lost : ∃ d : Daemon,
    Service.Reach (hosts storeSound) (offersOf nulFreeOps) (Daemon.start baseDir upperDir world) d ∧
    ∃ e, d.procs workspace = .idle e ∧ [[65], [98]] ∈ e.tombstones ∧
      [[65], [98]] ∉ d.world.store.visible.loadWorkspaceTombstones workspace := by
  obtain ⟨d, hd, hidle, hw⟩ := @reach_after (hosts storeSound) (fun _ _ => true) renameUp
    (fun c w _ => hosts_exec _ c w) (by unfold nulFreeOps; decide) (by decide +kernel)
  refine ⟨d, hd, _, hidle, by decide +kernel, ?_⟩
  rw [hw]
  decide +kernel

/-- An `unlink` meets the proviso: its tombstone is in memory and in the store. -/
theorem unlink_coherent :
    [[65], [98]] ∈ (after unlinkFile).1.tombstones ∧
      ∀ p, p ∈ (after unlinkFile).1.tombstones ↔
        p ∈ (after unlinkFile).2.store.visible.loadWorkspaceTombstones workspace := by
  refine ⟨by decide +kernel, ?_⟩
  obtain ⟨d, hd, hidle, hw⟩ := @reach_after likeExactHosts Call.likeExact unlinkFile
    (fun c w hok => ⟨hok, hosts_exec _ c w⟩) (by unfold nulFreeOps; decide) (by decide +kernel)
  rw [← hw]
  have hcan : ∀ row ∈ world.store.committed.tombstones, row.2.Canonical := by
    intro row hrow
    cases hrow
  exact ((restart_equivalence rfl hcan hd).2 workspace _ hidle).1

end RestartWitness

end TribiosVfs

import TribiosVfs.Lemmas.RecordContracts

/-!
# Lifecycle records have a recoverable journal record

`recoverable_records`: in every state the daemon comes to, every Creating record has a pending `workspace_create` record of its
name and every Removed one a pending `workspace_remove` record, as long as no `set_workspace_state` of the main thread's requests
fails and recovery's read of a Creating or Removed record does not fail. Any other call may fail, and the process may stop at any
point.
-/

namespace TribiosVfs

namespace RecordsAux

open Tables

/-! ## Recovery -/

/-- The lifecycle records pending under the ids of the loaded records are the loaded ones. -/
def Known (loaded : List RecoveryOperation) (t : Tables) : Prop := ∀ o ∈ loaded, ∀ kind name, kind.lifecycle = true →
  t.Pending kind name o.id → kind = o.kind ∧ name = o.workspace

/-- No record that is stored relies on the journal record. -/
def Done (loaded : List RecoveryOperation) (o : RecoveryOperation) (t : Tables) : Prop :=
  Known loaded t ∧ (o.kind = .workspaceCreate → ¬t.HasState o.workspace .creating) ∧
    (o.kind = .workspaceRemove → ¬t.HasState o.workspace .removed)

/-- What recovery learns from the read of a Workspace record: no record, or an active one, is neither Creating nor Removed. -/
def ReadSettled (loaded : List RecoveryOperation) (name : Name) (a : Option WorkspaceRecord) (t : Tables) : Prop :=
  Known loaded t ∧ (a = none ∨ a.map (·.state) = some .active → ¬t.HasState name .creating ∧ ¬t.HasState name .removed)

/-- Startup as it answers the calls. -/
abbrev Startup : Semantics Call Errno World := hosts (recordFaults .down)

section recovery

variable {loaded : List RecoveryOperation} {o : RecoveryOperation} {name : Name}

theorem known_closed : Closed [] (Known loaded) :=
  fun _ _ ho hk o hmem kind name hl hp => hk o hmem kind name hl (ho.fresh kind name _ hl hp)

theorem done_closed : Closed [] (Done loaded o) :=
  known_closed.and (.and (fun t t' ho h hk => closed_not (by decide) t t' ho (h hk))
    (fun t t' ho h hk => closed_not (by decide) t t' ho (h hk)))

theorem readSettled_closed (a : Option WorkspaceRecord) : Closed [] (ReadSettled loaded name a) :=
  known_closed.and (fun t t' ho h ha => ⟨closed_not (by decide) t t' ho (h ha).1, closed_not (by decide) t t' ho (h ha).2⟩)

theorem Done.droppable {t : Tables} (h : Done loaded o t) (hmem : o ∈ loaded) : Droppable t o.id where
  create n hp hs := by
    obtain ⟨hk, rfl⟩ := h.1 o hmem _ n rfl hp
    exact absurd hs (h.2.1 hk.symm)
  remove n hp := by
    obtain ⟨hk, rfl⟩ := h.1 o hmem _ n rfl hp
    exact fun hs => absurd hs (h.2.2 hk.symm)

theorem known_abandon {t : Tables} (h : Known loaded t) (id : Nat) : Known loaded (t.abandonRecoveryOperation id) :=
  fun o hmem kind name hl hp => h o hmem kind name hl ((pending_abandon ..).mp hp).1

theorem known_same {t t' : Tables} (hs : Same t t') (h : Known loaded t) : Known loaded t' :=
  fun o hmem kind name hl hp => h o hmem kind name hl ((hs.pending _ _ _).mp hp)

theorem loadSettled_does {ε : Type} : Ensures (ε := ε) Startup (mainContract []) (At [] (Known loaded))
    (loadWorkspaceRecord name) (fun a => At [] (ReadSettled loaded name a)) (fun _ => At [] (fun _ => True)) := by
  refine load_does known_closed readSettled_closed (fun t hb hk => ⟨hb, fun ha => ?_⟩) (fun w hw hmay => ⟨hw.known, fun _ => ?_⟩)
  · rcases ha with ha | ha
    · exact ⟨not_hasState_of_load ha, not_hasState_of_load ha⟩
    · obtain ⟨record, hr, hst⟩ := Option.map_eq_some_iff.mp ha
      have hactive : t.HasState name .active := hst ▸ hasState_of_load hr
      exact ⟨fun hs => (nomatch hk.state_unique hactive hs), fun hs => (nomatch hk.state_unique hactive hs)⟩
  · exact hmay name rfl

/-- The journal record that no stored record relies on is dropped. -/
theorem dropDone_does (hmem : o ∈ loaded) : Ensures Startup (mainContract []) (At [] (Done loaded o))
    (detailed (Io.call (.abandonRecoveryOperation o.id)) .storeFailed) (fun _ => At [] (Known loaded))
    (fun _ => At [] (fun _ => True)) :=
  ensures_detailed ((main_abandon done_closed known_closed (fun _ hb _ => hb.droppable hmem) (fun _ hj => nomatch hj)
    (fun _ hb => known_abandon hb.1 _)).mono (fun _ h => h) (fun _ _ h => h) (fun _ _ h => h.mono (fun _ _ => trivial)))
    (fun _ => At.steady known_closed) (At.steady Closed.top)

/-- A helper that keeps the records, in recovery. -/
theorem recovery_keeps {ε α : Type} {B : Tables → Prop} {p : Fallible ε α}
    (hp : Calls (·.keepsRecords = true) p) (hB : Closed [] B) :
    Ensures Startup (mainContract []) (At [] B) p (fun _ => At [] B) (fun _ => At [] (fun _ => True)) :=
  (main_keeps hp hB).mono (fun _ h => h) (fun _ _ h => h) (fun _ _ h => h.mono (fun _ _ => trivial))

/-- The record of a name is set to Reclaimed. -/
theorem setReclaimed_does : Ensures Startup (mainContract []) (At [] (Known loaded))
    (detailed (Io.call (.setWorkspaceState o.workspace .reclaimed)) .storeFailed) (fun _ => At [] (Done loaded o))
    (fun _ => At [] (fun _ => True)) := by
  refine ensures_detailed ((main_reclaimed known_closed done_closed (fun t hb => ⟨hb, fun _ hs => ?_, fun _ hs => ?_⟩)).mono
    (fun _ h => h) (fun _ _ h => h) (fun _ _ h => h.1.mono (fun _ _ => trivial))) (fun _ => At.steady done_closed)
    (At.steady Closed.top)
  all_goals
    rcases (hasState_setState ..).mp hs with ⟨hne, -⟩ | ⟨-, h, -⟩
    · exact absurd rfl hne
    · cases h

theorem recoverWorkspaceCreate_does (projectRoot tribiosDir workspacesDir : HostPath) (hmem : o ∈ loaded)
    (hk : o.kind = .workspaceCreate) : Ensures Startup (mainContract []) (At [] (Known loaded))
      (recoverWorkspaceCreate projectRoot tribiosDir workspacesDir o) (fun _ => At [] (Known loaded))
      (fun _ => At [] (fun _ => True)) := by
  have top : ∀ {β : Type} (_ : β), Steady (mainContract []) (At [] (fun _ => True)) := fun _ => At.steady Closed.top
  have hdone : ∀ {a : Option WorkspaceRecord} {t : Tables}, (a = none ∨ a.map (·.state) = some .active) →
      ReadSettled loaded o.workspace a t → Done loaded o t := by
    intro a t ha h
    refine ⟨h.1, fun _ => (h.2 ha).1, fun hr => ?_⟩
    rw [hk] at hr
    cases hr
  refine ensures_bind loadSettled_does top (fun a => ensures_bind (R := fun _ => At [] (Done loaded o)) ?_ top
    (fun _ => dropDone_does hmem))
  refine ensures_ite (fun ha => ?_) (fun ha => ?_)
  · exact (recovery_keeps (validateCompletedWorkspaceCreation_reads _ _ _).plain.keepsRecords done_closed).mono
      (fun _ h => h.mono (fun _ => hdone (Or.inr ha))) (fun _ _ h => h) (fun _ _ h => h)
  · refine ensures_bind (recovery_keeps loadProjectRecord_reads.plain.keepsRecords (readSettled_closed a)) top
      (fun project => ?_)
    cases project with
    | none => exact ensures_fail (At.steady (readSettled_closed a)) (fun _ h => h.mono (fun _ _ => trivial))
    | some project =>
      refine ensures_bind (recovery_keeps (calls_detailed (removeAll_plain _).keepsRecords) (readSettled_closed a)) top
        (fun _ => ensures_bind (recovery_keeps (rollbackLinkedWorktreeCreation_calls (fun _ => Call.keepsRecords_of_plain) rfl rfl rfl) (readSettled_closed a)) top
          (fun _ => ?_))
      refine ensures_onlyIf (At.steady (readSettled_closed a)) (fun _ => ?_) (fun w hw hns => hw.mono (fun _ => hdone (Or.inl ?_)))
      · exact setReclaimed_does.mono (fun _ h => h.mono (fun _ ht => ht.1)) (fun _ _ h => h) (fun _ _ h => h)
      · simpa using hns

theorem recoverWorkspaceRemove_does (projectRoot workspacesDir : HostPath) (hmem : o ∈ loaded)
    (hk : o.kind = .workspaceRemove) : Ensures Startup (mainContract []) (At [] (Known loaded))
      (recoverWorkspaceRemove projectRoot workspacesDir o) (fun _ => At [] (Known loaded)) (fun _ => At [] (fun _ => True)) := by
  have top : ∀ {β : Type} (_ : β), Steady (mainContract []) (At [] (fun _ => True)) := fun _ => At.steady Closed.top
  refine ensures_bind loadSettled_does top (fun a => ensures_ite (fun ha => ?_) (fun ha => ?_))
  · refine (dropDone_does hmem).mono (fun _ h => h.mono (fun t ht => ⟨ht.1, fun hc => ?_, fun _ => (ht.2 ?_).2⟩)) (fun _ _ h => h)
      (fun _ _ h => h)
    · rw [hk] at hc
      cases hc
    · simpa using ha
  · refine ensures_bind (recovery_keeps loadProjectRecord_reads.plain.keepsRecords (readSettled_closed a)) top
      (fun project => ?_)
    cases project with
    | none => exact ensures_fail (At.steady (readSettled_closed a)) (fun _ h => h.mono (fun _ _ => trivial))
    | some project =>
      have step : ∀ {β : Type} {p : Fallible RecoveryDetail β}, Calls (·.keepsRecords = true) p → Ensures Startup (mainContract [])
          (At [] (ReadSettled loaded o.workspace a)) p (fun _ => At [] (ReadSettled loaded o.workspace a))
          (fun _ => At [] (fun _ => True)) := fun hp => recovery_keeps hp (readSettled_closed a)
      refine ensures_bind (step (unregisterLinkedWorktree_calls (fun _ => Call.keepsRecords_of_plain) rfl)) top (fun _ => ?_)
      refine ensures_bind (step (calls_detailed (removeAll_plain _).keepsRecords)) top (fun _ => ?_)
      refine ensures_bind (step (calls_detailed (calls_call rfl))) top (fun _ => ?_)
      refine ensures_bind (step (calls_detailed (calls_call rfl))) top (fun _ => ?_)
      refine ensures_bind (step (calls_detailed (calls_call rfl))) top (fun _ => ?_)
      refine ensures_bind (setReclaimed_does.mono (fun _ h => h.mono (fun _ ht => ht.1)) (fun _ _ h => h) (fun _ _ h => h)) top
        (fun _ => dropDone_does hmem)

theorem Known.done {t : Tables} (h : Known loaded t) (hk : o.kind.lifecycle = false) : Done loaded o t := by
  refine ⟨h, fun hc => ?_, fun hr => ?_⟩
  · rw [hc] at hk
    cases hk
  · rw [hr] at hk
    cases hk

/-- A record of the engine is finished. -/
theorem finish_does (hmem : o ∈ loaded) (hk : o.kind.lifecycle = false) : Ensures Startup (mainContract [])
    (At [] (Known loaded)) (detailed (Io.call (.finishRecoveryOperation o)) .storeFailed) (fun _ => At [] (Known loaded))
    (fun _ => At [] (fun _ => True)) := by
  refine ensures_detailed (ensures_call (At.steady known_closed) (fun _ => At.steady known_closed) (fun _ => At.steady Closed.top)
    (fun w r w' ha hs => ?_)) (fun _ => At.steady known_closed) (At.steady Closed.top)
  have hsettles : Settles o.id w.store.visible w'.store.visible := step_finish rfl hs
  have hkept := ha.kept.step hs (good_settles hsettles ((ha.known.done hk).droppable hmem) ha.kept.visible)
  have hknown : Known loaded w'.store.visible := by
    rcases hsettles with h | ⟨t₁, h, ht⟩
    · exact known_same h ha.known
    · rw [ht]
      exact known_abandon (known_same h ha.known) _
  refine ⟨⟨fun _ => hkept, fun _ hj => nomatch hj⟩, ?_⟩
  cases r with
  | ok _ => exact ⟨hkept, fun _ hj => (nomatch hj), hknown⟩
  | error _ => exact ⟨hkept, fun _ hj => (nomatch hj), trivial⟩

theorem recoverEngineRecord_does (workspacesDir : HostPath) (hmem : o ∈ loaded) (hk : o.kind.lifecycle = false) :
    Ensures Startup (mainContract []) (At [] (Known loaded)) (recoverEngineRecord workspacesDir o) (fun _ => At [] (Known loaded))
      (fun _ => At [] (fun _ => True)) := by
  have top : ∀ {β : Type} (_ : β), Steady (mainContract []) (At [] (fun _ => True)) := fun _ => At.steady Closed.top
  have hvalid : Calls (·.keepsRecords = true) (validateRecord o) := calls_bind (calls_refuse _ _) (fun _ => calls_refuse _ _)
  refine ensures_bind (recovery_keeps hvalid known_closed) top (fun _ => ensures_ite (fun _ => ?_) (fun _ => ?_))
  · refine ensures_bind (recovery_keeps (calls_detailed (removeAll_plain _).keepsRecords) known_closed) top (fun _ => ?_)
    exact (dropDone_does hmem).mono (fun _ h => h.mono (fun _ ht => ht.done hk)) (fun _ _ h => h) (fun _ _ h => h)
  · exact ensures_bind (recovery_keeps (applyPublishing_plain _ _ _).keepsRecords known_closed) top
      (fun _ => finish_does hmem hk)

theorem recoverOperation_does (projectRoot tribiosDir workspacesDir : HostPath) (hmem : o ∈ loaded) :
    Ensures Startup (mainContract []) (At [] (Known loaded)) (recoverOperation projectRoot tribiosDir workspacesDir o)
      (fun _ => At [] (Known loaded)) (fun _ => At [] (fun _ => True)) := by
  unfold recoverOperation
  split
  · exact recoverWorkspaceCreate_does _ _ _ hmem ‹_›
  · exact recoverWorkspaceRemove_does _ _ hmem ‹_›
  · rename_i hc hr
    refine recoverEngineRecord_does _ hmem ?_
    cases hk : o.kind <;> first
      | rfl
      | exact absurd hk hc
      | exact absurd hk hr

/-- What is loaded is known. -/
theorem loadOperations_does : Ensures Startup (mainContract []) (At [] (fun _ => True)) (Io.call .loadRecoveryOperations)
    (fun loaded => At [] (Known loaded)) (fun _ => At [] (fun _ => True)) := by
  refine ensures_call (At.steady Closed.top) (fun _ => At.steady known_closed) (fun _ => At.steady Closed.top)
    (fun w r w' ha hs => ?_)
  rcases step_whole rfl hs with he | ⟨-, ⟨x, rfl⟩, rfl⟩
  · obtain ⟨rfl, rfl⟩ := Prod.mk.inj he
    refine ⟨⟨id, fun _ hj => nomatch hj⟩, ha.kept, ha.below, fun o hmem kind name _ hp => ?_⟩
    exact ha.kept.visible.keyed.pending_unique hp ⟨o, hmem, rfl, rfl, rfl⟩
  · exact ⟨⟨id, fun _ hj => nomatch hj⟩, ha⟩

theorem recoverInterruptedOperations_does (projectRoot tribiosDir workspacesDir : HostPath) :
    Ensures Startup (mainContract []) (At [] (fun _ => True))
      (recoverInterruptedOperations projectRoot tribiosDir workspacesDir) (fun _ => At [] (fun _ => True))
      (fun _ => At [] (fun _ => True)) := by
  have top : ∀ {β : Type} (_ : β), Steady (mainContract []) (At [] (fun _ => True)) := fun _ => At.steady Closed.top
  refine ensures_bind (ensures_orElseDo loadOperations_does (fun _ => At.steady known_closed) (fun x =>
    ensures_fail (top x) (fun _ h => h))) top (fun loaded => ?_)
  refine ensures_bind (ensures_forEach (At.steady known_closed) top (fun o hmem => ensures_orElseDo
    (recoverOperation_does _ _ _ hmem) (fun _ => At.steady known_closed) (fun x => ensures_fail (top x) (fun _ h => h)))) top
    (fun _ => ?_)
  exact (main_keeps (reclaimLeftovers_plain _ _).keepsRecords known_closed).mono (fun _ h => h)
    (fun _ _ h => h.mono (fun _ _ => trivial)) (fun _ _ h => h.mono (fun _ _ => trivial))

theorem openConfiguredProject_does (root : HostPath) : Ensures Startup (mainContract []) (At [] (fun _ => True))
    (openConfiguredProject root) (fun _ => At [] (fun _ => True)) (fun _ => At [] (fun _ => True)) := by
  have top : ∀ {β : Type} (_ : β), Steady (mainContract []) (At [] (fun _ => True)) := fun _ => At.steady Closed.top
  refine ensures_bind (main_reads loadProjectRecord_reads Closed.top) top (fun record => ?_)
  cases record with
  | none => exact ensures_fail (top ()) (fun _ h => h)
  | some record =>
    refine ensures_bind (ensures_orElseDo (recoverInterruptedOperations_does _ _ _) top (fun x =>
      ensures_fail (top x) (fun _ h => h))) top (fun _ => ?_)
    refine ensures_bind (main_reads (calls_orElseDo (validateProjectStorageInvariants_reads _ _ _) (fun _ => calls_fail _))
      Closed.top) top (fun _ => main_reads ?_ Closed.top)
    exact calls_bind loadAllWorkspaceRecords_reads (fun _ => calls_bind (constructEngines_reads _ _) (fun _ => calls_pure _))

end recovery

/-! ## The daemon -/

section daemon

variable {root : HostPath} {tags : List Reclamation}

/-- A record of no lifecycle's is dropped, or none. -/
theorem others_settles {mine : Nat → Prop} {id : Nat} {t t' : Tables} (hs : Settles id t t')
    (hno : ∀ kind name, kind.lifecycle = true → ¬t.Pending kind name id) : Others mine t t' := by
  rcases hs with hs | ⟨t₁, hs, rfl⟩
  · exact Others.of_same hs
  · have hno' : ∀ kind name, kind.lifecycle = true → ¬t₁.Pending kind name id :=
      fun kind name hl hp => hno kind name hl ((hs.pending _ _ _).mp hp)
    exact (Others.of_same hs).trans (others_abandon (Droppable.of_engine hno') (fun n hp => absurd hp (hno' _ n rfl))
      (fun n => hno' _ n rfl))

/-- What the engines do to the tables. -/
theorem others_engine {β : Type} {c : Call β} {w w' : World} {r : Except Errno β} (hc : c.engineRecord w)
    (hs : (hosts anyFaults).step c w r w') : (Good w.store.visible → Good w'.store.visible) ∧
      Others (fun _ => False) w.store.visible w'.store.visible := by
  have hsame : Same w.store.visible w'.store.visible → (Good w.store.visible → Good w'.store.visible) ∧
      Others (fun _ => False) w.store.visible w'.store.visible := fun h => ⟨good_same h, Others.of_same h⟩
  have hsettles : ∀ {id : Nat}, w.EngineId id → Settles id w.store.visible w'.store.visible →
      (Good w.store.visible → Good w'.store.visible) ∧ Others (fun _ => False) w.store.visible w'.store.visible :=
    fun hno h => ⟨good_settles h (Droppable.of_engine hno), others_settles h hno⟩
  cases c <;> try exact hc.elim
  case beginRecoveryOperation operation =>
    rcases step_whole rfl hs with he | ⟨-, -, rfl⟩
    · obtain ⟨rfl, rfl⟩ := Prod.mk.inj he
      have hv := Store.visible_update w.store (·.beginRecoveryOperation operation)
      rw [hv]
      exact ⟨good_begin operation, others_begin operation hc⟩
    · exact hsame (Same.refl _)
  case setRecoveryOperationPhase id phase => exact hsame (step_same rfl hs)
  case finishRecoveryOperation operation => exact hsettles hc (step_finish rfl hs)
  case abandonRecoveryOperation id =>
    rcases step_whole rfl hs with he | ⟨-, -, rfl⟩
    · obtain ⟨rfl, rfl⟩ := Prod.mk.inj he
      have hv := Store.visible_update w.store (·.abandonRecoveryOperation id)
      rw [hv] at hsettles ⊢
      exact hsettles hc (Or.inr ⟨_, Same.refl _, rfl⟩)
    · exact hsame (Same.refl _)

theorem around_does {w w' : World} (h : Around w w') :
    (Kept w → Kept w') ∧ Others (fun _ => False) w.store.visible w'.store.visible := by
  cases h with
  | host h => exact ⟨fun hk => ⟨h ▸ hk.committed, h ▸ hk.visible⟩, h ▸ Others.refl _⟩
  | engine hc hs =>
    obtain ⟨hg, ho⟩ := others_engine hc hs
    exact ⟨fun hk => hk.step hs (hg hk.visible), ho⟩

/-- What holds while the main thread rests. -/
def Resting (d : DaemonState) (tags : List Reclamation) (w : World) : Prop :=
  At tags (fun _ => True) w ∧ ((∃ m, d = .up m) ∨ tags = [])

theorem startDaemon_does {w : World} (h : At [] (fun _ => True) w) :
    (startDaemon root).Safe Startup (mainContract []) (fun r w' => Resting r.1 r.2.toList w' ∧ r.2 = none) w := by
  refine Prog.Safe.bind (openConfiguredProject_does root w h) (fun r w' hr w'' hrely => ?_)
  have hw' : At [] (fun _ => True) w' := by cases r <;> exact hr
  have hw'' := (At.steady Closed.top).rely w' w'' hw' hrely
  cases r <;> exact ⟨⟨hw'', Or.inr rfl⟩, rfl⟩

/-- What the end of a request owes: the rest of the main thread, and of the removal's thread. -/
def Served (tags : List Reclamation) (r : DaemonState × Option Reclamation) (w : World) : Prop :=
  Resting r.1 (tags ++ r.2.toList) w ∧ ∀ j ∈ r.2, j.id ∉ tags.map (·.id) ∧ JobAt (Owned j) w

theorem served_none {m : Manager} {w : World} (h : At tags (fun _ => True) w) : Served tags (.up m, none) w :=
  ⟨by simpa using ⟨h, Or.inl ⟨m, rfl⟩⟩, fun _ hj => nomatch hj⟩

theorem serve_does {m : Manager} (request : LifecycleRequest) {w : World} (h : At tags (fun _ => True) w) :
    (request.serve m).Safe (hosts (recordFaults (.up m))) (mainContract tags) (Served tags) w := by
  cases request with
  | create name requestedBranch =>
    refine Prog.Safe.bind (createWorkspace_does name requestedBranch w h) (fun r w' hr w'' hrely => ?_)
    have hw' : At tags (fun _ => True) w' := by cases r <;> exact hr
    have hw'' := (At.steady Closed.top).rely w' w'' hw' hrely
    cases r <;> exact served_none hw''
  | remove name =>
    refine Prog.Safe.bind (removeWorkspace_does name w h) (fun r w' hr w'' hrely => ?_)
    cases r with
    | error x => exact served_none ((At.steady Closed.top).rely w' w'' hr hrely)
    | ok r =>
      obtain ⟨result, id⟩ := r
      obtain ⟨hkept, hbelow, hlt, hp⟩ := (At.steady removing_closed).rely w' w'' hr hrely
      refine ⟨⟨⟨hkept, fun j hj => ?_, trivial⟩, Or.inl ⟨_, rfl⟩⟩, fun j hj => ?_⟩
      · rcases List.mem_append.mp hj with hj | hj
        · exact hbelow j hj
        · rw [List.mem_singleton.mp hj]
          exact hkept.visible.keyed.pending_below hp
      · cases hj
        refine ⟨fun hmem => ?_, hkept, hp⟩
        obtain ⟨j', hj', he⟩ := List.mem_map.mp hmem
        exact (Nat.ne_of_lt (hlt j' hj')) he

/-- The invariant of the daemon. -/
def invariant (root : HostPath) : Workers.Invariant (recordLifecycle root) Nat where
  key := Reclamation.id
  mainC _ tags := mainContract tags
  jobC := jobContract
  Idle := Resting
  Kept := Kept
  idle_kept h := h.1.kept
  main_kept h := h
  idle_rely h hr := ⟨(At.steady Closed.top).rely _ _ h.1 hr, h.2⟩
  main_job hj hg := ⟨hg.1, hg.2 _ hj⟩
  job_main hj hg := ⟨hg.1, hg.2.mono (fun _ he => ⟨_, hj, he.symm⟩)⟩
  job_job hne hg := ⟨hg.1, hg.2.jobKept (fun he => hne he.symm)⟩
  env_main h := ⟨(around_does h).1, (around_does h).2.mono (fun _ he => he.elim)⟩
  env_job h := ⟨(around_does h).1, (around_does h).2.jobKept not_false⟩
  start := by
    intro d tags w p hidle hoff
    have hjob : ∀ {j : Reclamation} {w' : World}, JobAt (Owned j) w' →
        Prog.Safe (hosts anyFaults) (jobContract j) (fun _ _ => True) ((recordLifecycle root).work j) w' :=
      fun hw' => Prog.Safe.bind (reclaimWorkspace_does _ hw') (fun _ _ _ _ _ => trivial)
    cases d with
    | down =>
      obtain rfl : tags = [] := hidle.2.resolve_left (fun ⟨_, h⟩ => nomatch h)
      obtain rfl : p = startDaemon root := hoff
      refine Prog.Safe.mono (startDaemon_does hidle.1) (fun r w' hr => ⟨hr.1, fun j hj => ?_⟩)
      rw [hr.2] at hj
      cases hj
    | exited => exact hoff.elim
    | up m =>
      obtain ⟨request, rfl⟩ := hoff
      exact Prog.Safe.mono (serve_does request hidle.1) (fun r w' hr => ⟨hr.1, fun j hj => ⟨(hr.2 j hj).1, hjob (hr.2 j hj).2⟩⟩)
  stopped h := ⟨⟨⟨h.committed, h.committed⟩, fun _ hj => (nomatch hj), trivial⟩, Or.inr rfl⟩

theorem configured_resting {w : World} (h : w.Configured) : Resting .down [] w := by
  obtain ⟨project, h⟩ := h
  have hgood : Good ({ project := some project } : Tables) :=
    ⟨⟨List.nodup_nil, fun _ ho => (nomatch ho), List.nodup_nil⟩,
      fun _ => ⟨fun ⟨_, hr, _⟩ => (nomatch hr), fun ⟨_, hr, _⟩ => (nomatch hr)⟩⟩
  exact ⟨⟨⟨by rw [h]; exact hgood, by rw [h]; exact hgood⟩, fun _ hj => (nomatch hj), trivial⟩, Or.inr rfl⟩

end daemon

end RecordsAux

/-- In every state the daemon of a configured Project comes to, the committed tables and those its connection sees have a pending
creation for every Creating record and a pending removal for every Removed one. -/
theorem recoverable_records {root : HostPath} {w : World} {c : Workers Call Errno DaemonState Reclamation World}
    (hw : w.Configured) (hr : Workers.Reach (recordLifecycle root) ⟨.idle .down, [], w⟩ c) :
    c.world.store.committed.Recoverable ∧ c.world.store.visible.Recoverable := by
  have hstart : (RecordsAux.invariant root).Holds ⟨.idle .down, [], w⟩ :=
    ⟨List.nodup_nil, RecordsAux.configured_resting hw, fun _ hj => nomatch hj⟩
  have hkept := (Workers.Invariant.holds _ hstart hr).kept
  exact ⟨hkept.committed.recoverable, hkept.visible.recoverable⟩

/-! ## A failed cleanup -/

namespace RecordsWitness

/-- A configured Project at `/p`, mounted at `/m`; the creation of a Workspace's storage is to fail. -/
def world : World where
  host := {
    tree := ⟨[([[112]], ⟨.dir, ⟨3, 493, 0, 0, 0⟩⟩), ([[112], kGitDirName], ⟨.dir, ⟨4, 493, 0, 0, 0⟩⟩),
      ([[112], kTribiosDirName], ⟨.dir, ⟨5, 493, 0, 0, 0⟩⟩), ([[112], kTribiosDirName, baseName], ⟨.dir, ⟨6, 493, 0, 0, 0⟩⟩),
      ([[112], kTribiosDirName, workspacesName], ⟨.dir, ⟨7, 493, 0, 0, 0⟩⟩), ([[109]], ⟨.dir, ⟨8, 493, 0, 0, 0⟩⟩)]⟩
    nextIno := 9, now := 5, umask := 18 }
  store := { committed := { project := some ⟨[[112]], [[109]]⟩ } }
  env := { ioFault := some (.lifecycleStorageCreate, Errno.EIO) }

def root : HostPath := [[112]]

def manager : Manager := { paths := ⟨root, [[109]]⟩ }

/-- `ws.create` of `w`. -/
def create : LifecycleRequest := .create [119] []

/-- Every `set_workspace_state` fails. -/
def failing {β : Type} (c : Call β) (w : World) : Except Errno β × World :=
  if c.setsState then (.error Errno.EIO, w) else exec c w

theorem failing_step {β : Type} (c : Call β) (w : World) : (hosts anyFaults).step c w (failing c w).1 (failing c w).2 := by
  unfold failing
  split
  · rename_i hc
    have hint : c.internal = false := by
      cases c <;> first
        | rfl
        | cases hc
    exact Or.inr ⟨hint, trivial, Fault.error c w _⟩
  · exact Or.inl rfl

theorem configured : world.Configured := ⟨⟨[[112]], [[109]]⟩, rfl⟩

def started : World := ((startDaemon root).run exec world).2

theorem starts : (startDaemon root).run exec world = ((.up manager, none), started) := Prod.ext rfl rfl

/-- The daemon starts, and a request is begun. -/
theorem reach_create {main : DaemonState → Semantics Call Errno World} {job : Semantics Call Errno World}
    {env : DaemonState → World → World → Prop}
    (hexec : ∀ {β : Type} (c : Call β) (w : World), (main .down).step c w (exec c w).1 (exec c w).2) :
    Workers.Reach (lifecycle root main job env) ⟨.idle .down, [], world⟩ ⟨.busy (.up manager) (create.serve manager), [], started⟩ := by
  have hrun := Workers.runs_main exec (Y := lifecycle root main job env) (m := .down) hexec (startDaemon root) [] world
  rw [starts] at hrun
  exact ((Workers.Reach.refl.start rfl).runs hrun).start ⟨create, rfl⟩

def cleaned : World := ((create.serve manager).run exec started).2
def stranded : World := ((create.serve manager).run failing started).2

/-- The storage of a new Workspace cannot be made, its record cannot be marked reclaimed, and the journal record is dropped all
the same: the record stays Creating with nothing to recover it by. -/
theorem creating_stranded : world.Configured ∧ ∃ c, Workers.Reach
    (lifecycle root (fun _ => hosts anyFaults) (hosts anyFaults) (fun _ => Around)) ⟨.idle .down, [], world⟩ c ∧
      ¬c.world.store.committed.Recoverable := by
  have hrun := Workers.runs_main failing (Y := lifecycle root (fun _ => hosts anyFaults) (hosts anyFaults) (fun _ => Around))
    (m := .up manager) failing_step (create.serve manager) [] started
  refine ⟨configured, _, (reach_create (fun c w => hosts_exec _ c w)).runs hrun, fun h => ?_⟩
  have hnone : stranded.store.committed.operations = [] := by decide +kernel
  obtain ⟨id, o, ho, -⟩ := (h [119]).1 (by decide +kernel : stranded.store.committed.HasState [119] .creating)
  have ho : o ∈ stranded.store.committed.operations := ho
  rw [hnone] at ho
  cases ho

/-- Where the record can be marked, it is. -/
theorem creating_cleaned : cleaned.store.committed.Recoverable ∧ cleaned.store.visible.Recoverable := by
  have hrun := Workers.runs_main exec (Y := recordLifecycle root) (m := .up manager) (fun c w => hosts_exec _ c w)
    (create.serve manager) [] started
  exact recoverable_records configured ((reach_create (fun c w => hosts_exec _ c w)).runs hrun)

end RecordsWitness

end TribiosVfs

import TribiosVfs.Lemmas.Programs
import TribiosVfs.Lemmas.Records
import TribiosVfs.ProjectManager

/-!
# What the lifecycle's helpers can call

Read off the programs, whatever the answers: the helpers of creation, removal, recovery and startup make plain calls, and the calls
of Git that their arguments name.
-/

namespace TribiosVfs

/-- The calls that change neither a state of a record, nor the journal but its phases, nor what Git has registered. -/
def Call.plain : {β : Type} → Call β → Bool
  | _, .beginRecoveryOperation _ => false
  | _, .finishRecoveryOperation _ => false
  | _, .abandonRecoveryOperation _ => false
  | _, .saveWorkspaceRecord _ => false
  | _, .setWorkspaceState _ _ => false
  | _, .gitBranch _ _ => false
  | _, .gitWorktreeAdd _ _ _ => false
  | _, .writeGitdir _ _ => false
  | _, .gitWorktreeRemove _ => false
  | _, .gitBranchDelete _ => false
  | _, _ => true

section plain

variable {ε α : Type}

theorem Call.plain_of_reads {β : Type} {c : Call β} (h : c.reads = true) : c.plain = true := by
  cases c <;> first
    | rfl
    | cases h

theorem Call.keepsRecords_of_plain {β : Type} {c : Call β} (h : c.plain = true) : c.keepsRecords = true := by
  cases c <;> first
    | rfl
    | cases h

theorem Calls.plain {p : Fallible ε α} (h : Calls (·.reads = true) p) : Calls (·.plain = true) p :=
  h.mono (fun _ => Call.plain_of_reads)

theorem Calls.keepsRecords {p : Fallible ε α} (h : Calls (·.plain = true) p) : Calls (·.keepsRecords = true) p :=
  h.mono (fun _ => Call.keepsRecords_of_plain)

theorem calls_detailed {good : {γ : Type} → Call γ → Prop} {p : Io α} {f : Errno → RecoveryDetail} (h : Calls good p) :
    Calls good (detailed p f) := calls_orElseDo h (fun _ => calls_fail _)

end plain

/-! ## Reads -/

section reads

theorem readFirstLine_reads {ε : Type} (path : HostPath) : Calls (·.reads = true) (readFirstLine path : Fallible ε Bytes) :=
  ⟨rfl, fun _ => trivial⟩

theorem isDirectory_reads {ε : Type} (path : HostPath) : Calls (·.reads = true) (isDirectory path : Fallible ε Bool) :=
  ⟨rfl, fun _ => trivial⟩

theorem isRegularFile_reads {ε : Type} (path : HostPath) : Calls (·.reads = true) (isRegularFile path : Fallible ε Bool) :=
  ⟨rfl, fun _ => trivial⟩

theorem loadWorkspaceRecord_reads {ε : Type} (name : Name) :
    Calls (·.reads = true) (loadWorkspaceRecord name : Fallible ε (Option WorkspaceRecord)) := ⟨rfl, fun _ => trivial⟩

theorem loadProjectRecord_reads {ε : Type} : Calls (·.reads = true) (loadProjectRecord : Fallible ε (Option ProjectRecord)) :=
  ⟨rfl, fun _ => trivial⟩

theorem loadAllWorkspaceRecords_reads {ε : Type} :
    Calls (·.reads = true) (loadAllWorkspaceRecords : Fallible ε (List WorkspaceRecord)) := ⟨rfl, fun _ => trivial⟩

theorem loadWorkspaceTombstones_reads {ε : Type} (name : Name) :
    Calls (·.reads = true) (loadWorkspaceTombstones name : Fallible ε (List RelPath)) := ⟨rfl, fun _ => trivial⟩

theorem validateCompletedWorkspaceCreation_reads (projectRoot upperDir : HostPath) (operation : RecoveryOperation) :
    Calls (·.reads = true) (validateCompletedWorkspaceCreation projectRoot upperDir operation) := by
  refine calls_bind (readFirstLine_reads _) (fun pointer => calls_bind (calls_refuse _ _) (fun _ => ?_))
  refine calls_bind (isDirectory_reads _) (fun present => calls_bind (calls_refuse _ _) (fun _ => ?_))
  refine calls_bind (calls_detailed (calls_call rfl)) (fun admin => calls_bind (calls_detailed (calls_call rfl)) (fun registry => ?_))
  refine calls_bind (calls_refuse _ _) (fun _ => calls_bind (readFirstLine_reads _) (fun gitFile => ?_))
  refine calls_bind (calls_refuse _ _) (fun _ => calls_bind (calls_detailed (calls_call rfl)) (fun checked => ?_))
  exact calls_bind (calls_refuse _ _) (fun _ => calls_bind (calls_detailed (calls_call rfl)) (fun _ => calls_refuse _ _))

theorem validateActiveWorkspace_reads (projectRoot workspacesDir : HostPath) (workspace : WorkspaceRecord) :
    Calls (·.reads = true) (validateActiveWorkspace projectRoot workspacesDir workspace) :=
  calls_bind (isDirectory_reads _) (fun _ => calls_bind (calls_refuse _ _) (fun _ =>
    calls_orElseDo (validateCompletedWorkspaceCreation_reads _ _ _) (fun _ => calls_fail _)))

theorem validateWorkspace_reads (projectRoot workspacesDir : HostPath) (workspace : WorkspaceRecord) :
    Calls (·.reads = true) (validateWorkspace projectRoot workspacesDir workspace) :=
  calls_bind (calls_refuse _ _) (fun _ => calls_bind (calls_refuse _ _) (fun _ =>
    calls_bind (calls_onlyIf (validateActiveWorkspace_reads _ _ _)) (fun _ =>
      calls_bind (loadWorkspaceTombstones_reads _) (fun _ => calls_forEach (fun _ _ => calls_refuse _ _)))))

theorem validateProjectStorageInvariants_reads (projectRoot baseDir workspacesDir : HostPath) :
    Calls (·.reads = true) (validateProjectStorageInvariants projectRoot baseDir workspacesDir) := by
  refine calls_bind (calls_orElseDo (calls_call rfl) (fun _ => calls_fail _)) (fun _ => ?_)
  refine calls_bind (isDirectory_reads _) (fun base => calls_bind (calls_refuse _ _) (fun _ => ?_))
  refine calls_bind loadProjectRecord_reads (fun project => ?_)
  cases project with
  | none => exact calls_fail _
  | some project =>
    refine calls_bind (calls_orElseDo (calls_call rfl) (fun _ => calls_fail _)) (fun recorded => ?_)
    refine calls_bind (calls_orElseDo (calls_call rfl) (fun _ => calls_fail _)) (fun opened => ?_)
    refine calls_bind (calls_refuse _ _) (fun _ => ?_)
    refine calls_bind (calls_orElseDo (calls_call rfl) (fun _ => calls_fail _)) (fun pending => ?_)
    cases pending with
    | nil => exact calls_bind loadAllWorkspaceRecords_reads (fun _ => calls_forEach (fun _ _ => validateWorkspace_reads _ _ _))
    | cons operation _ => exact calls_fail _

theorem constructEngine_reads {ε : Type} (paths : ProjectPaths) (name : Name) :
    Calls (·.reads = true) (constructEngine paths name : Fallible ε Engine) :=
  calls_bind (loadWorkspaceTombstones_reads _) (fun _ => calls_pure _)

theorem constructEngines_reads {ε : Type} (paths : ProjectPaths) (records : List WorkspaceRecord) :
    Calls (·.reads = true) (constructEngines paths records : Fallible ε (List (Name × Engine))) := by
  induction records with
  | nil => exact calls_pure _
  | cons record records ih =>
    exact calls_ite (calls_bind (constructEngine_reads _ _) (fun _ => calls_bind ih (fun _ => calls_pure _))) ih

end reads

/-! ## Writes of the host -/

section writes

theorem removeAll_plain (path : HostPath) : Calls (·.plain = true) (removeAll path) :=
  calls_bind (calls_call rfl) (fun _ => calls_forEach (fun _ _ => calls_call rfl))

theorem createDirectories_plain (path : HostPath) : Calls (·.plain = true) (createDirectories path) :=
  calls_forEach (fun _ _ => calls_call rfl)

theorem syncParentDirectory_plain (path : HostPath) : Calls (·.plain = true) (syncParentDirectory path) := calls_call rfl

theorem writeFileDurably_plain (path : HostPath) (contents : Bytes) : Calls (·.plain = true) (writeFileDurably path contents) :=
  calls_bind (calls_call rfl) (fun _ => calls_bind (calls_call rfl) (fun _ => syncParentDirectory_plain path))

theorem removeUpperEntry_plain (path : HostPath) (directory : Bool) : Calls (·.plain = true) (removeUpperEntry path directory) := by
  refine calls_bind (calls_lstat rfl) (fun found => ?_)
  cases found with
  | none => exact calls_pure _
  | some _ =>
    refine calls_bind (calls_detailed ?_) (fun _ => calls_detailed (syncParentDirectory_plain path))
    exact calls_ite (removeAll_plain path) (calls_call rfl)

theorem moveStagedEntry_plain (stage destination : HostPath) : Calls (·.plain = true) (moveStagedEntry stage destination) := by
  refine calls_bind (calls_lstat rfl) (fun found => ?_)
  cases found with
  | none => exact calls_bind (calls_lstat rfl) (fun _ => calls_refuse _ _)
  | some _ => exact calls_bind (calls_detailed (createDirectories_plain _)) (fun _ => calls_detailed (calls_call rfl))

theorem applyPublishing_plain (operation : RecoveryOperation) (upperDir stage : HostPath) :
    Calls (·.plain = true) (applyPublishing operation upperDir stage) := by
  have hstaged : Calls (·.plain = true) (do
      publishStagedEntry stage (upperDir ++ operation.destinationRelative)
      Fallible.onlyIf (operation.kind = .rename) (removeUpperEntry (upperDir ++ operation.path) true)) :=
    calls_bind (calls_bind (moveStagedEntry_plain _ _) (fun _ => calls_detailed (syncParentDirectory_plain _)))
      (fun _ => calls_onlyIf (removeUpperEntry_plain _ _))
  unfold applyPublishing
  split
  · exact removeUpperEntry_plain _ _
  · exact removeUpperEntry_plain _ _
  · exact hstaged

theorem reclaimLeftovers_plain (tribiosDir workspacesDir : HostPath) :
    Calls (·.plain = true) (reclaimLeftovers tribiosDir workspacesDir) := by
  refine calls_bind (calls_attempt (calls_call rfl)) (fun listing => ?_)
  refine calls_bind (calls_forEach (fun child _ => ?_)) (fun _ => ?_)
  · exact calls_bind (isDirectory_reads _).plain (fun _ =>
      calls_onlyIf (calls_orElseDo (removeAll_plain _) (fun _ => calls_fail _)))
  · exact calls_bind (calls_orElseDo (removeAll_plain _) (fun _ => calls_fail _)) (fun _ =>
      calls_bind (calls_orFail (createDirectories_plain _)) (fun _ => calls_orFail (syncParentDirectory_plain _)))

theorem flushLinkedWorktree_plain (projectRoot adminDir : HostPath) (name : Name) :
    Calls (·.plain = true) (flushLinkedWorktree projectRoot adminDir name) := by
  refine calls_bind (calls_forEach (fun file _ => ?_)) (fun _ => ?_)
  · exact calls_bind (isRegularFile_reads _).plain (fun _ => calls_onlyIf (calls_orFail (calls_call rfl)))
  · refine calls_bind (calls_orFail (calls_call rfl)) (fun _ => calls_bind (calls_orFail (syncParentDirectory_plain _)) ?_)
    refine fun _ => calls_bind (isRegularFile_reads _).plain (fun _ => calls_onlyIf ?_)
    exact calls_bind (calls_orFail (calls_call rfl)) (fun _ => calls_orFail (syncParentDirectory_plain _))

end writes

/-! ## Git -/

section git

variable {good : {γ : Type} → Call γ → Prop} (hplain : ∀ {γ : Type} (c : Call γ), c.plain = true → good c)
include hplain

theorem unregisterLinkedWorktree_calls {projectRoot workspacePath : HostPath} (hremove : good (.gitWorktreeRemove workspacePath)) :
    Calls good (unregisterLinkedWorktree projectRoot workspacePath) :=
  calls_bind (calls_detailed (calls_call hremove)) (fun _ => calls_bind (calls_refuse _ _) (fun _ =>
    calls_bind ((isDirectory_reads _).plain.mono hplain) (fun _ =>
      calls_bind (calls_onlyIf (calls_detailed (calls_call (hplain _ rfl)))) (fun _ =>
        calls_detailed (calls_call (hplain _ rfl))))))

/-- A rollback removes the two worktrees it is given and deletes the branch it is given, and no other. -/
theorem rollbackLinkedWorktreeCreation_calls {projectRoot : HostPath} {name : Name} {workspacePath stagingDir : HostPath}
    (hworkspace : good (.gitWorktreeRemove workspacePath)) (hstaging : good (.gitWorktreeRemove stagingDir))
    (hbranch : good (.gitBranchDelete (cStr name))) :
    Calls good (rollbackLinkedWorktreeCreation projectRoot name workspacePath stagingDir) := by
  have hdelete : Calls good (do
      let deleted ← detailed (Io.call (.gitBranchDelete (cStr name))) (fun _ => .gitFailed)
      Fallible.refuse (deleted ≠ .ok ∧ deleted ≠ .notFound) RecoveryDetail.gitFailed) :=
    calls_bind (calls_detailed (calls_call hbranch)) (fun _ => calls_refuse _ _)
  refine calls_bind (calls_attempt (unregisterLinkedWorktree_calls hplain hworkspace)) (fun first =>
    calls_bind (calls_attempt (unregisterLinkedWorktree_calls hplain hstaging)) (fun second => ?_))
  cases first <;> cases second
  · exact calls_fail _
  all_goals exact hdelete

/-- What follows once Git was asked for the branch. -/
theorem branched_calls {projectRoot : HostPath} {name : Name} {workspacePath stagingDir : HostPath} {branched : GitReply}
    (hadd : good (.gitWorktreeAdd projectRoot (cStr name) stagingDir)) (hwrite : ∀ admin gitFile, good (.writeGitdir admin gitFile)) :
    Calls good (do
      Fallible.refuse (branched ≠ .ok) RegisterError.worktreeAddFailed
      let added ← (Io.call (.gitWorktreeAdd projectRoot (cStr name) stagingDir)).orFail .worktreeAddFailed
      Fallible.refuse (added ≠ .ok) .worktreeAddFailed
      let gitFile ← readFirstLine (stagingDir ++ [kGitDirName])
      match findText gitdirWord gitFile with
      | none => Fallible.fail .unexpectedGitFile
      | some marker => do
        let admin := gitFile.drop (marker + 8)
        let adminDir := hostPathOf admin
        (Io.call (.writeGitdir adminDir (workspacePath ++ [kGitDirName]))).orFail .cannotUpdateGitdir
        (removeAll stagingDir).ignore
        (Io.call (.populateWorkspaceGitIndex adminDir)).orFail .cannotPopulateIndex
        flushLinkedWorktree projectRoot adminDir name
        return gitdirMarker ++ admin ++ [10]) := by
  refine calls_bind (calls_refuse _ _) (fun _ => calls_bind (calls_orFail (calls_call hadd)) (fun added => ?_))
  refine calls_bind (calls_refuse _ _) (fun _ => calls_bind ((readFirstLine_reads _).plain.mono hplain) (fun gitFile => ?_))
  cases findText gitdirWord gitFile with
  | none => exact calls_fail _
  | some marker =>
    refine calls_bind (calls_orFail (calls_call (hwrite _ _))) (fun _ =>
      calls_bind (calls_ignore ((removeAll_plain _).mono hplain)) (fun _ => ?_))
    exact calls_bind (calls_orFail (calls_call (hplain _ rfl))) (fun _ =>
      calls_bind ((flushLinkedWorktree_plain _ _ _).mono hplain) (fun _ => calls_pure _))

theorem registerLinkedWorktree_calls {projectRoot : HostPath} {name : Name} {workspacePath stagingDir : HostPath}
    (hbranch : good (.gitBranch projectRoot (cStr name))) (hadd : good (.gitWorktreeAdd projectRoot (cStr name) stagingDir))
    (hwrite : ∀ admin gitFile, good (.writeGitdir admin gitFile)) :
    Calls good (registerLinkedWorktree projectRoot name workspacePath stagingDir) :=
  calls_bind (calls_ignore ((removeAll_plain _).mono hplain)) (fun _ =>
    calls_bind (calls_ignore ((createDirectories_plain _).mono hplain)) (fun _ =>
      calls_bind (calls_orFail (calls_call hbranch)) (fun _ => branched_calls hplain hadd hwrite)))

end git

end TribiosVfs

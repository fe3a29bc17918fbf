import TribiosVfs.Lemmas.Calls
import TribiosVfs.Operations

/-!
# What the engine's programs can call

Read off the programs, whatever the answers: lookups only read; and apart from `finish_recovery_operation` no call of an engine
operation touches a tombstone, in the store or in memory.
-/

namespace TribiosVfs

/-- Every call a computation makes is a good one. -/
def Calls {ε α : Type} (good : {γ : Type} → Call γ → Prop) (p : Fallible ε α) : Prop := Prog.Only good (fun _ => True) p

theorem Fallible.bind_assoc {ε α β γ : Type} (p : Fallible ε α) (f : α → Fallible ε β) (g : β → Fallible ε γ) :
    ((p >>= f) >>= g) = (p >>= fun a => f a >>= g) := by
  refine (Prog.bind_assoc p (Fallible.andThen f) (Fallible.andThen g)).trans ?_
  refine congrArg (Prog.bind p) (funext fun r => ?_)
  cases r <;> rfl

theorem Fallible.forEach_append {ε α : Type} (f : α → Fallible ε Unit) (as bs : List α) :
    Fallible.forEach f (as ++ bs) = (Fallible.forEach f as >>= fun _ => Fallible.forEach f bs) := by
  induction as with
  | nil => rfl
  | cons a as ih => rw [List.cons_append, Fallible.forEach, Fallible.forEach, ih, Fallible.bind_assoc]

section calls

variable {ε ε' α β : Type} {good good' : {γ : Type} → Call γ → Prop}

theorem Calls.mono {p : Fallible ε α} (h : Calls good p) (hg : ∀ {γ : Type} (c : Call γ), good c → good' c) :
    Calls good' p := Prog.Only.mono h hg (fun _ h => h)

theorem calls_pure (a : α) : Calls good (pure a : Fallible ε α) := trivial

theorem calls_fail (x : ε) : Calls good (Fallible.fail x : Fallible ε α) := trivial

theorem calls_call {c : Call α} (h : good c) : Calls good (Io.call c) := ⟨h, fun _ => trivial⟩

theorem calls_lstat {p : HostPath} (h : good (.lstat p)) : Calls good (lstatPath p : Fallible ε (Option Node)) :=
  ⟨h, fun _ => trivial⟩

theorem calls_bind {p : Fallible ε α} {f : α → Fallible ε β} (hp : Calls good p) (hf : ∀ a, Calls good (f a)) :
    Calls good (p >>= f) :=
  Prog.Only.bind hp (fun r _ => by
    cases r with
    | ok a => exact hf a
    | error x => trivial)

theorem calls_attempt {p : Fallible ε α} (hp : Calls good p) : Calls good (p.attempt : Fallible ε' (Except ε α)) :=
  Prog.Only.bind hp (fun _ _ => trivial)

theorem calls_ignore {p : Fallible ε α} (hp : Calls good p) : Calls good (p.ignore : Fallible ε' Unit) :=
  Prog.Only.bind hp (fun _ _ => trivial)

theorem calls_orElseDo {p : Fallible ε α} {f : ε → Fallible ε' α} (hp : Calls good p) (hf : ∀ x, Calls good (f x)) :
    Calls good (p.orElseDo f) :=
  Prog.Only.bind hp (fun r _ => by
    cases r with
    | ok a => trivial
    | error x => exact hf x)

theorem calls_orFail {p : Fallible ε α} {x : ε'} (hp : Calls good p) : Calls good (p.orFail x) :=
  calls_orElseDo hp (fun _ => trivial)

theorem calls_refuse (c : Prop) [Decidable c] (x : ε) : Calls good (Fallible.refuse c x) := by
  unfold Fallible.refuse
  split <;> trivial

theorem calls_ite {c : Prop} [Decidable c] {p q : Fallible ε α} (hp : Calls good p) (hq : Calls good q) :
    Calls good (if c then p else q) := by
  split
  · exact hp
  · exact hq

theorem calls_onlyIf {c : Prop} [Decidable c] {p : Fallible ε Unit} (hp : Calls good p) :
    Calls good (Fallible.onlyIf c p) :=
  calls_ite hp (calls_pure ())

theorem calls_forEach {f : α → Fallible ε Unit} {as : List α} (hf : ∀ a ∈ as, Calls good (f a)) :
    Calls good (Fallible.forEach f as) := by
  induction as with
  | nil => exact calls_pure ()
  | cons a as ih =>
    exact calls_bind (hf a List.mem_cons_self) (fun _ => ih (fun b hb => hf b (List.mem_cons_of_mem _ hb)))

end calls

/-! ## Lookups -/

section lookups

variable (relative : RelPath) (e : Engine)

theorem findVisibleEntryLayer_reads : Calls (·.reads = true) (findVisibleEntryLayer relative e) := by
  refine calls_bind (calls_lstat rfl) (fun st => ?_)
  cases st with
  | some st => exact calls_pure _
  | none => exact calls_ite (calls_bind (calls_lstat rfl) (fun _ => calls_pure _)) (calls_pure _)

theorem mergeDirectory_reads (path : HostPath) (filterTombstones : Bool) (entries : List DirEntry) :
    Calls (·.reads = true) (mergeDirectory relative path filterTombstones entries e) := by
  refine calls_bind (calls_attempt (calls_call rfl)) (fun r => ?_)
  cases r with
  | error _ => exact calls_pure _
  | ok listing => exact calls_pure _

theorem mergeVisibleDirectoryEntries_reads : Calls (·.reads = true) (mergeVisibleDirectoryEntries relative e) :=
  calls_bind (calls_ite (mergeDirectory_reads relative e _ _ _) (calls_pure _) : Calls _ (mergeBaseDirectory relative e))
    (fun _ => mergeDirectory_reads relative e _ _ _)

theorem computeDirectoryEntries_reads : Calls (·.reads = true) (computeDirectoryEntries relative e) := by
  refine calls_bind (findVisibleEntryLayer_reads relative e) (fun found => ?_)
  cases found with
  | none => exact calls_fail _
  | some found => exact calls_bind (calls_refuse _ _) (fun _ => mergeVisibleDirectoryEntries_reads relative e)

theorem baseEntryVisible_reads : Calls (·.reads = true) (baseEntryVisible e relative) :=
  calls_ite (calls_bind (calls_lstat rfl) (fun _ => calls_pure _)) (calls_pure _)

end lookups

theorem syncParentDirectory_reads (path : HostPath) : Calls (·.reads = true) (syncParentDirectory path) := calls_call rfl

theorem syncEntryTree_reads (path : HostPath) : Calls (·.reads = true) (syncEntryTree path) := by
  refine calls_bind (calls_call rfl) (fun st => calls_ite (calls_call rfl) (calls_ite ?_ (calls_pure _)))
  refine calls_bind (calls_attempt (calls_call rfl)) (fun r => ?_)
  cases r with
  | error _ => exact calls_call rfl
  | ok entries =>
    exact calls_forEach (fun entry _ => calls_ite (calls_call rfl) (calls_ite (calls_call rfl) (calls_pure _)))

/-! ## Calls that leave the tombstones -/

/-- The calls that touch no tombstone row. -/
def Call.keepsTombstones : {β : Type} → Call β → Bool
  | _, .finishRecoveryOperation _ => false
  | _, .clearTombstones _ => false
  | _, _ => true

theorem Call.keepsTombstones_of_reads {β : Type} {c : Call β} (h : c.reads = true) : c.keepsTombstones = true := by
  cases c <;> first
    | rfl
    | cases h

theorem Calls.keeps {ε α : Type} {p : Fallible ε α} (h : Calls (·.reads = true) p) : Calls (·.keepsTombstones = true) p :=
  h.mono (fun _ => Call.keepsTombstones_of_reads)

theorem mkdirOrExisting_keeps (path : HostPath) (mode : Nat) : Calls (·.keepsTombstones = true) (mkdirOrExisting path mode) :=
  calls_orElseDo (calls_call rfl) (fun _ => calls_ite (calls_pure _) (calls_fail _))

theorem removeAll_keeps (path : HostPath) : Calls (·.keepsTombstones = true) (removeAll path) :=
  calls_bind (calls_call rfl) (fun _ => calls_forEach (fun _ _ => calls_call rfl))

theorem materializeVisibleEntryAt_keeps (e : Engine) (fuel : Nat) : ∀ (relative : RelPath) (destination : HostPath),
    Calls (·.keepsTombstones = true) (materializeVisibleEntryAt e fuel relative destination) := by
  induction fuel with
  | zero => exact fun _ _ => calls_fail _
  | succ fuel ih =>
    intro relative destination
    refine calls_bind (findVisibleEntryLayer_reads relative e).keeps (fun found => ?_)
    rcases found with _ | ⟨layer, st⟩
    · exact calls_fail _
    · dsimp only
      cases st.contents with
      | dir =>
        exact calls_bind (mkdirOrExisting_keeps _ _) (fun _ =>
          calls_bind (mergeVisibleDirectoryEntries_reads relative e).keeps (fun children =>
            calls_bind (calls_forEach (fun child _ => ih _ _)) (fun _ => calls_ignore (calls_call rfl))))
      | symlink _ =>
        exact calls_bind (calls_attempt (calls_call rfl)) (fun _ => calls_orFail (calls_call rfl))
      | file _ =>
        exact calls_bind (calls_orFail (calls_call rfl)) (fun _ => calls_bind (calls_call rfl) (fun _ => calls_call rfl))

theorem materialize_keeps (e : Engine) (relative : RelPath) (stage : HostPath) :
    Calls (·.keepsTombstones = true) (materialize e relative stage) :=
  calls_bind (calls_call rfl) (fun _ => materializeVisibleEntryAt_keeps e _ _ _)

theorem discardStage_keeps {α : Type} (e : Engine) (id : Nat) (x : Errno) :
    Calls (·.keepsTombstones = true) (discardStage e id x : Io α) :=
  calls_bind (calls_ignore (removeAll_keeps _)) (fun _ => calls_bind (calls_ignore (calls_call rfl)) (fun _ => calls_fail _))

theorem beginAndStage_keeps {α : Type} (e : Engine) (operation : RecoveryOperation) {prepareStage : HostPath → Io α}
    (hp : ∀ stage, Calls (·.keepsTombstones = true) (prepareStage stage)) :
    Calls (·.keepsTombstones = true) (beginAndStage e operation prepareStage) := by
  refine calls_bind (calls_orFail (calls_call rfl)) (fun id => calls_bind (calls_orElseDo ?_ ?_) (fun _ =>
    calls_bind (calls_orElseDo ?_ (discardStage_keeps e id)) (fun _ => calls_pure _)))
  · exact calls_bind (calls_orFail (calls_call rfl)) (fun _ => (syncParentDirectory_reads _).keeps)
  · exact fun x => calls_bind (calls_ignore (calls_call rfl)) (fun _ => calls_fail x)
  · exact calls_bind (hp _) (fun _ => calls_bind (calls_call rfl) (fun _ => calls_bind (syncEntryTree_reads _).keeps (fun _ =>
      calls_bind (calls_orFail (calls_call rfl)) (fun _ => calls_bind (calls_call rfl) (fun _ =>
        calls_bind (calls_orFail (calls_call rfl)) (fun _ => calls_pure _))))))

theorem publishStage_keeps (e : Engine) (operation : RecoveryOperation) :
    Calls (·.keepsTombstones = true) (publishStage e operation) :=
  calls_orElseDo (calls_bind (calls_call rfl) (fun _ => calls_bind (calls_call rfl) (fun _ =>
    calls_bind (calls_call rfl) (fun _ => calls_call rfl)))) (discardStage_keeps e _)

theorem removeRenamedSource_keeps (e : Engine) (operation : RecoveryOperation) :
    Calls (·.keepsTombstones = true) (removeRenamedSource e operation) :=
  calls_bind (calls_lstat rfl) (fun _ => calls_bind (calls_orFail (removeAll_keeps _)) (fun _ =>
    calls_onlyIf (calls_orFail (syncParentDirectory_reads _).keeps)))

theorem removeEntry_keeps (path : HostPath) (directory : Bool) :
    Calls (·.keepsTombstones = true) (removeEntry path directory) :=
  calls_ite (removeAll_keeps _) (calls_call rfl)

theorem removeUpper_keeps (e : Engine) (operation : RecoveryOperation) (directory : Bool) :
    Calls (·.keepsTombstones = true) (removeUpper e operation directory) :=
  calls_bind (calls_lstat rfl) (fun _ => calls_onlyIf (calls_bind (calls_orElseDo (removeEntry_keeps _ _) (fun _ =>
    calls_bind (calls_ignore (calls_call rfl)) (fun _ => calls_fail _)))
    (fun _ => calls_orFail (syncParentDirectory_reads _).keeps)))

/-! ## Computations that leave the tombstones in memory -/

/-- Two memories of one Workspace with the same tombstones: all that lookups read. -/
structure Engine.SameView (e e' : Engine) : Prop where
  workspace : e'.workspace = e.workspace
  baseDir : e'.baseDir = e.baseDir
  upperDir : e'.upperDir = e.upperDir
  inodeSalt : e'.inodeSalt = e.inodeSalt
  tombstones : e'.tombstones = e.tombstones

theorem Engine.SameView.refl (e : Engine) : e.SameView e := ⟨rfl, rfl, rfl, rfl, rfl⟩

theorem Engine.SameView.trans {e e' e'' : Engine} (h : e.SameView e') (h' : e'.SameView e'') : e.SameView e'' :=
  ⟨h'.workspace.trans h.workspace, h'.baseDir.trans h.baseDir, h'.upperDir.trans h.upperDir,
    h'.inodeSalt.trans h.inodeSalt, h'.tombstones.trans h.tombstones⟩

/-- Every call a computation makes is a good one, and it leaves what lookups read of the memory. -/
def EngineM.Quiet {α : Type} (good : {γ : Type} → Call γ → Prop) (m : EngineM α) : Prop :=
  ∀ e, Prog.Only good (fun r => e.SameView r.2) (m e)

namespace EngineM

variable {α β : Type} {good : {γ : Type} → Call γ → Prop}

theorem quiet_pure (a : α) : Quiet good (pure a : EngineM α) := fun e => Engine.SameView.refl e

theorem quiet_fail (x : Errno) : Quiet good (fail x : EngineM α) := fun e => Engine.SameView.refl e

theorem quiet_bind {m : EngineM α} {f : α → EngineM β} (hm : Quiet good m) (hf : ∀ a, Quiet good (f a)) :
    Quiet good (m >>= f) := by
  intro e
  refine Prog.Only.bind (hm e) (fun r hr => ?_)
  obtain ⟨r, e'⟩ := r
  cases r with
  | ok a => exact Prog.Only.mono (hf a e') (fun _ h => h) (fun _ h => hr.trans h)
  | error x => exact hr

theorem quiet_reads {f : Engine → Io α} (hf : ∀ e, Calls good (f e)) : Quiet good (reads f) :=
  fun e => Prog.Only.bind (hf e) (fun _ _ => Engine.SameView.refl e)

theorem quiet_modify {f : Engine → Engine} (hf : ∀ e : Engine, e.SameView (f e)) : Quiet good (modify f) := fun e => hf e

theorem quiet_refuse (c : Prop) [Decidable c] (x : Errno) : Quiet good (refuse c x) :=
  quiet_reads (fun _ => calls_refuse c x)

theorem quiet_ite {c : Prop} [Decidable c] {m m' : EngineM α} (hm : Quiet good m) (hm' : Quiet good m') :
    Quiet good (if c then m else m') := by
  split
  · exact hm
  · exact hm'

theorem quiet_onlyIf {c : Prop} [Decidable c] {m : EngineM Unit} (hm : Quiet good m) : Quiet good (onlyIf c m) :=
  quiet_ite hm (quiet_pure ())

end EngineM

open EngineM

theorem forgetCachedDirectoryEntries_quiet {good : {γ : Type} → Call γ → Prop} (relative : RelPath) :
    Quiet good (forgetCachedDirectoryEntries relative) :=
  quiet_modify (fun _ => ⟨rfl, rfl, rfl, rfl, rfl⟩)

theorem createUpperParentDirectory_quiet (dir : RelPath) :
    Quiet (·.keepsTombstones = true) (createUpperParentDirectory dir) := by
  refine quiet_bind (quiet_reads (fun e => calls_lstat rfl)) (fun st => ?_)
  cases st with
  | some st => exact quiet_refuse _ _
  | none =>
    refine quiet_bind (quiet_reads (fun e => calls_ite (calls_lstat rfl) (calls_pure _))) (fun st => ?_)
    cases st with
    | none => exact quiet_fail _
    | some st =>
      exact quiet_bind (quiet_refuse _ _) (fun _ => quiet_bind (forgetCachedDirectoryEntries_quiet dir) (fun _ =>
        quiet_bind (quiet_reads (fun e => mkdirOrExisting_keeps _ _)) (fun _ =>
          quiet_reads (fun e => calls_orFail (syncParentDirectory_reads _).keeps))))

theorem createUpperParentDirectories_quiet (rest : List Name) :
    ∀ done : RelPath, Quiet (·.keepsTombstones = true) (createUpperParentDirectories done rest) := by
  induction rest with
  | nil => exact fun _ => quiet_pure ()
  | cons name rest ih =>
    intro done
    cases rest with
    | nil => exact quiet_pure ()
    | cons name' rest => exact quiet_bind (createUpperParentDirectory_quiet _) (fun _ => ih _)

theorem beginPublication_quiet {α : Type} (operation : RecoveryOperation) {prepareStage : Engine → HostPath → Io α}
    (hp : ∀ e stage, Calls (·.keepsTombstones = true) (prepareStage e stage)) :
    Quiet (·.keepsTombstones = true) (beginPublication operation prepareStage) :=
  quiet_bind (quiet_reads (fun _ => calls_call rfl)) (fun _ => quiet_bind (forgetCachedDirectoryEntries_quiet _) (fun _ =>
    quiet_bind (quiet_onlyIf (forgetCachedDirectoryEntries_quiet _)) (fun _ =>
      quiet_reads (fun e => beginAndStage_keeps e operation (hp e)))))

theorem journalRemoval_keeps (operation : RecoveryOperation) :
    Calls (·.keepsTombstones = true) (journalRemoval operation) :=
  calls_bind (calls_orFail (calls_call rfl)) (fun _ => calls_bind (calls_orElseDo (calls_call rfl)
    (fun _ => calls_bind (calls_ignore (calls_call rfl)) (fun _ => calls_fail _))) (fun _ => calls_pure _))

theorem beginRemoval_quiet (operation : RecoveryOperation) : Quiet (·.keepsTombstones = true) (beginRemoval operation) :=
  quiet_bind (quiet_reads (fun e => (baseEntryVisible_reads _ e).keeps)) (fun _ =>
    quiet_bind (forgetCachedDirectoryEntries_quiet _) (fun _ => quiet_reads (fun _ => journalRemoval_keeps _)))

/-! ## What computations return -/

/-- Every value a computation can return has a property. -/
def Returns {ε α : Type} (P : α → Prop) (p : Fallible ε α) : Prop :=
  Prog.Only (fun _ => True) (fun r => ∀ a, r = .ok a → P a) p

theorem returns_bind {ε α β : Type} {P : β → Prop} {p : Fallible ε α} {f : α → Fallible ε β} (hf : ∀ a, Returns P (f a)) :
    Returns P (p >>= f) :=
  Prog.Only.bind (Prog.only_trivial p) (fun r _ => by
    cases r with
    | ok a => exact hf a
    | error x => exact fun a h => by cases h)

theorem returns_pure {ε α : Type} {P : α → Prop} {a : α} (h : P a) : Returns P (pure a : Fallible ε α) :=
  fun b hb => by cases hb; exact h

/-- The value an engine computation returns has a property. -/
def EngineM.Returns {α : Type} (P : α → Prop) (m : EngineM α) : Prop :=
  ∀ e, Prog.Only (fun _ => True) (fun r => ∀ a, r.1 = .ok a → P a) (m e)

theorem EngineM.returns_bind {α β : Type} {P : β → Prop} {m : EngineM α} {f : α → EngineM β} (hf : ∀ a, (f a).Returns P) :
    (m >>= f).Returns P :=
  fun e => Prog.Only.bind (Prog.only_trivial (m e)) (fun r _ => by
    obtain ⟨r, e'⟩ := r
    cases r with
    | ok a => exact hf a e'
    | error x => exact fun a h => by cases h)

theorem EngineM.returns_reads {α : Type} {P : α → Prop} {f : Engine → Io α} (hf : ∀ e, TribiosVfs.Returns P (f e)) :
    (reads f).Returns P :=
  fun e => Prog.Only.bind (hf e) (fun _ hr => hr)

/-- The record a publication goes on with is the one it began, with its id and in the publishing phase. -/
theorem beginPublication_returns {α : Type} (operation : RecoveryOperation) (prepareStage : Engine → HostPath → Io α) :
    (beginPublication operation prepareStage).Returns (fun a => ∃ id, a.1 = { operation with id := id, phase := .publishing }) :=
  EngineM.returns_bind (fun _ => EngineM.returns_bind (fun _ => EngineM.returns_bind (fun _ => returns_reads (fun _ =>
    TribiosVfs.returns_bind (fun id => TribiosVfs.returns_bind (fun _ => TribiosVfs.returns_bind (fun _ =>
      returns_pure ⟨id, rfl⟩)))))))

theorem beginRemoval_returns (operation : RecoveryOperation) :
    (beginRemoval operation).Returns
      (fun o => ∃ id b, o = { operation with id := id, addPathTombstone := b, phase := .publishing }) :=
  EngineM.returns_bind (fun b => EngineM.returns_bind (fun _ => returns_reads (fun _ =>
    TribiosVfs.returns_bind (fun id => TribiosVfs.returns_bind (fun _ => returns_pure ⟨id, b, rfl⟩)))))

end TribiosVfs

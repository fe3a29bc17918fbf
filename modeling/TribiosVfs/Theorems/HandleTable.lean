import TribiosVfs.Lemmas.Runs

/-!
# The handle table

The calls on open handles of one engine, in any order and number, with any call failing. As long as the counter of handle ids
stays within a signed 32-bit integer an id is never given out twice, and it keeps its path and flags until it is closed.
-/

namespace TribiosVfs

/-! ## Runs of handle calls -/

/-- A call on the handles of an engine. -/
inductive HandleOp where
  | openHandle (path : Bytes) (flags : OpenFlags)
  | readHandle (fd : Int) (size offset : Nat)
  | writeHandle (fd : Int) (data : Bytes) (offset : Nat)
  | fsyncHandle (fd : Int) (dataOnly : Bool)
  | closeHandle (fd : Int)
  deriving DecidableEq, Repr

/-- What a call on a handle returns. -/
inductive HandleAnswer where
  | opened (id : Int)
  | bytes (data : Bytes)
  | accepted (count : Nat)
  | done
  deriving DecidableEq, Repr

def HandleOp.perform : HandleOp → EngineM HandleAnswer
  | .openHandle path flags => do return .opened (← TribiosVfs.openHandle path flags)
  | .readHandle fd size offset => do return .bytes (← TribiosVfs.readHandle fd size offset)
  | .writeHandle fd data offset => do return .accepted (← TribiosVfs.writeHandle fd data offset)
  | .fsyncHandle fd dataOnly => do
    TribiosVfs.fsyncHandle fd dataOnly
    return .done
  | .closeHandle fd => do
    TribiosVfs.closeHandle fd
    return .done

/-- One call of a run: the engine's memory and the world before it, what it answers, and what it leaves. -/
structure HandleStep (σ : Type) where
  op : HandleOp
  before : Engine
  start : σ
  answer : Except Errno HandleAnswer
  after : Engine
  finish : σ

section runs

variable {σ : Type} (S : Semantics Call Errno σ) (R : σ → σ → Prop)

/-- The call can come to its end so. -/
def HandleStep.Performs (s : HandleStep σ) : Prop :=
  Prog.Reach S R (s.op.perform s.before) s.start (.ret (s.answer, s.after)) s.finish

/-- A run of handle calls from an engine. Between two calls the rest of the engine's memory and the world may change. -/
inductive HandleRun (e₀ : Engine) : List (HandleStep σ) → Engine → Prop where
  | start : HandleRun e₀ [] e₀
  | step {steps e} (s : HandleStep σ) : HandleRun e₀ steps e → s.before.handles = e.handles →
      s.before.nextHandle = e.nextHandle → s.Performs S R → HandleRun e₀ (steps ++ [s]) s.after

/-- The largest `int`. -/
def kIntMax : Int := 2147483647

/-- What one call owes the table: an id it gives out was not open, and denotes the descriptor this call opened; every other id
that was open keeps its path and flags; a write that succeeds leaves its descriptor open; and the counter has stayed an `int`. -/
structure HandleStep.Intact (s : HandleStep σ) : Prop where
  fresh : ∀ path flags id, s.op = .openHandle path flags → s.answer = .ok (.opened id) → s.before.findHandle id = none ∧
    ∃ file, s.after.findHandle id = some ⟨some file, flags, normalizeRelative path⟩ ∧ ∃ layer access k w₁ w₂,
      Prog.Reach S R (s.op.perform s.before) s.start
        (.call (.openFile (s.before.layerPath layer (normalizeRelative path)) access) k) w₁ ∧
      S.step (.openFile (s.before.layerPath layer (normalizeRelative path)) access) w₁ (.ok file) w₂ ∧
      Prog.Reach S R (k (.ok file)) w₂ (.ret (s.answer, s.after)) s.finish
  kept : ∀ id h, s.before.findHandle id = some h → s.op ≠ .closeHandle id →
    ∃ backing, s.after.findHandle id = some { h with backing := backing }
  backed : ∀ fd data offset n, s.op = .writeHandle fd data offset → s.answer = .ok (.accepted n) →
    ∃ h file, s.after.findHandle fd = some h ∧ h.backing = some file
  bounded : 1 ≤ s.after.nextHandle ∧ s.after.nextHandle ≤ kIntMax

/-- The integrity of the table over a run: every call is intact, and an id that was given out and not closed denotes at the end
the path and flags it was opened with. -/
structure TableIntegrity (steps : List (HandleStep σ)) (e : Engine) : Prop where
  intact : ∀ s ∈ steps, s.Intact S R
  lives : ∀ before s after path flags id, steps = before ++ s :: after → s.op = .openHandle path flags →
    s.answer = .ok (.opened id) → (∀ t ∈ after, t.op ≠ .closeHandle id) →
    ∃ backing, e.findHandle id = some ⟨backing, flags, normalizeRelative path⟩

end runs

/-- Whether a call opened a handle. -/
def HandleStep.opens {σ : Type} (s : HandleStep σ) : Bool :=
  match s.answer with
  | .ok (.opened _) => true
  | _ => false

namespace TableAux

/-! ## The table -/

/-- Ids are given out in increasing order: every id in the table lies below the counter. -/
def Ordered (e : Engine) : Prop := ∀ entry ∈ e.handles, entry.1 < e.nextHandle

theorem findHandle_mem {e : Engine} {id : Int} {h : OpenHandle} (hfind : e.findHandle id = some h) : (id, h) ∈ e.handles := by
  unfold Engine.findHandle at hfind
  obtain ⟨entry, hentry, rfl⟩ := Option.map_eq_some_iff.mp hfind
  have hid := List.find?_some hentry
  rw [decide_eq_true_iff] at hid
  subst hid
  exact List.mem_of_find?_eq_some hentry

theorem findHandle_congr {e e' : Engine} (h : e'.handles = e.handles) (id : Int) : e'.findHandle id = e.findHandle id := by
  unfold Engine.findHandle
  rw [h]

theorem ordered_congr {e e' : Engine} (hord : Ordered e) (hhandles : e'.handles = e.handles)
    (hnext : e'.nextHandle = e.nextHandle) : Ordered e' := by
  intro entry hmem
  rw [hhandles] at hmem
  rw [hnext]
  exact hord entry hmem

/-- An id below the counter is new. -/
theorem findHandle_next {e : Engine} (hord : Ordered e) : e.findHandle e.nextHandle = none := by
  cases hfind : e.findHandle e.nextHandle with
  | none => rfl
  | some h => exact absurd (hord _ (findHandle_mem hfind)) (lt_irrefl _)

/-- In an ordered table `emplace` adds its entry. -/
theorem handles_addHandle {e : Engine} (hord : Ordered e) (h : OpenHandle) :
    (e.addHandle h).handles = e.handles ++ [(e.nextHandle, h)] := by
  unfold Engine.addHandle
  refine if_neg ?_
  rw [List.any_eq_true]
  rintro ⟨entry, hmem, heq⟩
  have hlt := hord entry hmem
  rw [decide_eq_true_iff] at heq
  omega

theorem ordered_addHandle {e : Engine} (hord : Ordered e) (h : OpenHandle) : Ordered (e.addHandle h) := by
  intro entry hmem
  have hnext : (e.addHandle h).nextHandle = e.nextHandle + 1 := rfl
  rw [handles_addHandle hord, List.mem_append, List.mem_singleton] at hmem
  rcases hmem with hmem | rfl
  · have hlt := hord entry hmem
    omega
  · rw [hnext]
    omega

theorem findHandle_addHandle_self {e : Engine} (hord : Ordered e) (h : OpenHandle) :
    (e.addHandle h).findHandle e.nextHandle = some h := by
  have hnone := findHandle_next hord
  unfold Engine.findHandle at hnone ⊢
  rw [Option.map_eq_none_iff] at hnone
  rw [handles_addHandle hord, List.find?_append, hnone]
  simp

theorem findHandle_addHandle_old {e : Engine} (hord : Ordered e) (h : OpenHandle) {id : Int} {h' : OpenHandle}
    (hfind : e.findHandle id = some h') : (e.addHandle h).findHandle id = some h' := by
  unfold Engine.findHandle at hfind ⊢
  obtain ⟨entry, hentry, rfl⟩ := Option.map_eq_some_iff.mp hfind
  rw [handles_addHandle hord, List.find?_append, hentry]
  rfl

/-- What `setBacking` leaves of an entry. -/
theorem findHandle_setBacking (e : Engine) (fd : Int) (backing : Option Descriptor) (id : Int) :
    (e.setBacking fd backing).findHandle id =
      (e.findHandle id).map (fun h => if id = fd then { h with backing := backing } else h) := by
  unfold Engine.findHandle Engine.setBacking
  induction e.handles with
  | nil => rfl
  | cons entry entries ih =>
    obtain ⟨key, h⟩ := entry
    rw [List.map_cons, List.find?_cons, List.find?_cons]
    by_cases hkey : key = id
    · subst hkey
      by_cases hfd : key = fd <;> simp [hfd]
    · have hkey' : (if key = fd then (key, { h with backing := backing }) else (key, h)).1 = key := by split <;> rfl
      simp only [hkey', hkey, decide_false]
      exact ih

/-- Closing an id leaves the others. -/
theorem findHandle_filter {e e' : Engine} {fd id : Int} (hne : id ≠ fd)
    (h : e'.handles = e.handles.filter (fun entry => entry.1 ≠ fd)) : e'.findHandle id = e.findHandle id := by
  unfold Engine.findHandle
  rw [h]
  induction e.handles with
  | nil => rfl
  | cons entry entries ih =>
    rw [List.filter_cons]
    by_cases hfd : entry.1 = fd
    · have hid : ¬entry.1 = id := fun heq => hne (heq ▸ hfd)
      simpa [hfd, hid, List.find?_cons, Ne.symm hne] using ih
    · simp only [hfd, ne_eq, not_false_eq_true, decide_true, if_true, List.find?_cons]
      by_cases hid : entry.1 = id
      · simp [hid]
      · simp only [hid, decide_false]
        exact ih

/-! ## What leaves the table alone -/

/-- The memory of an engine with the same table, over the same trees. -/
structure SameTable (e e' : Engine) : Prop where
  handles : e'.handles = e.handles
  nextHandle : e'.nextHandle = e.nextHandle
  upperDir : e'.upperDir = e.upperDir
  baseDir : e'.baseDir = e.baseDir

theorem SameTable.refl (e : Engine) : SameTable e e := ⟨rfl, rfl, rfl, rfl⟩

theorem SameTable.trans {e e' e'' : Engine} (h : SameTable e e') (h' : SameTable e' e'') : SameTable e e'' :=
  ⟨h'.handles.trans h.handles, h'.nextHandle.trans h.nextHandle, h'.upperDir.trans h.upperDir, h'.baseDir.trans h.baseDir⟩

/-- A computation that leaves the table alone, whatever its calls are answered. -/
def LeavesTable {α : Type} (m : EngineM α) : Prop := ∀ e, (m e).Only (fun _ => True) (fun r => SameTable e r.2)

section leaves

variable {α β : Type}

theorem leaves_pure (a : α) : LeavesTable (pure a : EngineM α) := fun e => SameTable.refl e

theorem leaves_fail (x : Errno) : LeavesTable (EngineM.fail x : EngineM α) := fun e => SameTable.refl e

theorem leaves_reads (f : Engine → Io α) : LeavesTable (EngineM.reads f) :=
  fun e => (Prog.only_trivial (f e)).bind (fun _ _ => SameTable.refl e)

theorem leaves_refuse (c : Prop) [Decidable c] (x : Errno) : LeavesTable (EngineM.refuse c x) := leaves_reads _

theorem leaves_modify {f : Engine → Engine} (h : ∀ e, SameTable e (f e)) : LeavesTable (EngineM.modify f) := fun e => h e

/-- The rule of sequencing: what the first part returns when it succeeds is where the second starts. -/
theorem only_engine_bind {m : EngineM α} {f : α → EngineM β} {e : Engine} {P : Except Errno α × Engine → Prop}
    {Q : Except Errno β × Engine → Prop} (hm : (m e).Only (fun _ => True) P)
    (hf : ∀ a e', P (.ok a, e') → (f a e').Only (fun _ => True) Q) (hx : ∀ x e', P (.error x, e') → Q (.error x, e')) :
    ((m >>= f) e).Only (fun _ => True) Q := by
  refine hm.bind ?_
  rintro ⟨r, e'⟩ hP
  cases r with
  | error x => exact hx x e' hP
  | ok a => exact hf a e' hP

theorem leaves_bind {m : EngineM α} {f : α → EngineM β} (hm : LeavesTable m) (hf : ∀ a, LeavesTable (f a)) :
    LeavesTable (m >>= f) := by
  intro e
  exact only_engine_bind (hm e) (fun a e' hsame => (hf a e').mono (fun _ h => h) (fun _ h => hsame.trans h))
    (fun x e' hsame => hsame)

theorem leaves_onlyIf (c : Prop) [Decidable c] {m : EngineM Unit} (hm : LeavesTable m) : LeavesTable (EngineM.onlyIf c m) := by
  unfold EngineM.onlyIf
  split
  · exact hm
  · exact leaves_pure ()

end leaves

theorem leaves_forget (relative : RelPath) : LeavesTable (forgetCachedDirectoryEntries relative) :=
  leaves_modify (fun _ => ⟨rfl, rfl, rfl, rfl⟩)

theorem leaves_createUpperParentDirectory (dir : RelPath) : LeavesTable (createUpperParentDirectory dir) := by
  refine leaves_bind (leaves_reads _) (fun found => ?_)
  cases found with
  | some st => exact leaves_refuse _ _
  | none =>
    refine leaves_bind (leaves_reads _) (fun base => ?_)
    cases base with
    | none => exact leaves_fail _
    | some st =>
      exact leaves_bind (leaves_refuse _ _) (fun _ => leaves_bind (leaves_forget dir) (fun _ =>
        leaves_bind (leaves_reads _) (fun _ => leaves_reads _)))

theorem leaves_createUpperParentDirectories (done rest : RelPath) : LeavesTable (createUpperParentDirectories done rest) := by
  induction rest generalizing done with
  | nil => exact leaves_pure ()
  | cons name rest ih =>
    cases rest with
    | nil => exact leaves_pure ()
    | cons name' rest => exact leaves_bind (leaves_createUpperParentDirectory _) (fun _ => ih _)

theorem leaves_finishOperation (operation : RecoveryOperation) : LeavesTable (finishOperation operation) :=
  leaves_bind (leaves_reads _) (fun _ => leaves_modify (fun _ => ⟨rfl, rfl, rfl, rfl⟩))

/-- A publication leaves the table alone. -/
theorem leaves_publishAt {α : Type} (kind : OperationKind) (relative : RelPath) (prepareStage : Engine → HostPath → Io α) :
    LeavesTable (publishAt kind relative prepareStage) := by
  refine leaves_bind (leaves_createUpperParentDirectories [] relative) (fun _ e => ?_)
  have hpublish : LeavesTable (publishStagedOperation (e.operation kind relative) prepareStage) := by
    refine leaves_bind ?_ (fun begun => ?_)
    · exact leaves_bind (leaves_reads _) (fun _ => leaves_bind (leaves_forget _) (fun _ =>
        leaves_bind (leaves_onlyIf _ (leaves_forget _)) (fun _ => leaves_reads _)))
    · refine leaves_bind (leaves_reads _) (fun _ => leaves_bind ?_ (fun _ => leaves_pure _))
      exact leaves_bind (leaves_reads _) (fun _ => leaves_bind (leaves_reads _) (fun _ =>
        leaves_bind (leaves_finishOperation _) (fun _ => leaves_reads _)))
  exact hpublish e

theorem leaves_createForOpen (relative : RelPath) (flags : OpenFlags) : LeavesTable (createForOpen relative flags) := by
  refine leaves_bind (leaves_reads _) (fun found => ?_)
  cases found with
  | none =>
    exact leaves_bind (leaves_refuse _ _) (fun _ => leaves_bind (leaves_publishAt _ _ _) (fun _ => leaves_pure _))
  | some found =>
    exact leaves_bind (leaves_refuse _ _) (fun _ => leaves_bind (leaves_refuse _ _) (fun _ => leaves_pure _))

theorem leaves_truncateForOpen (relative : RelPath) (flags : OpenFlags) (layer : Layer) :
    LeavesTable (truncateForOpen relative flags layer) := by
  unfold truncateForOpen
  split
  · exact leaves_bind (leaves_publishAt _ _ _) (fun _ => leaves_pure _)
  · exact leaves_pure _

/-! ## What a call does -/

section calls

variable {σ α β : Type} {S : Semantics Call Errno σ} {R : σ → σ → Prop}

/-- A sequence that succeeds: its first part has succeeded, and its second part starts from there. What the second part comes
to, the sequence comes to. -/
theorem reach_engine_bind {m : EngineM α} {f : α → EngineM β} {e e' : Engine} {w w' : σ} {b : β}
    (h : Prog.Reach S R ((m >>= f) e) w (.ret (.ok b, e')) w') : ∃ a e₁ w₁,
      Prog.Reach S R (m e) w (.ret (.ok a, e₁)) w₁ ∧ Prog.Reach S R (f a e₁) w₁ (.ret (.ok b, e')) w' ∧
      ∀ q w₂, Prog.Reach S R (f a e₁) w₁ q w₂ → Prog.Reach S R ((m >>= f) e) w q w₂ := by
  rcases Prog.reach_bind h with ⟨p', hp, heq⟩ | ⟨⟨r, e₁⟩, w₁, hp, hq⟩
  · cases p' with
    | call c k => cases heq
    | ret r =>
      obtain ⟨r, e₁⟩ := r
      cases r with
      | error x => cases heq
      | ok a =>
        have hret : f a e₁ = Prog.ret (Except.ok b, e') := heq.symm
        exact ⟨a, e₁, w', hp, hret ▸ .refl, fun q w₂ hq => (hp.bind (EngineM.andThen f)).trans hq⟩
  · cases r with
    | error x => cases Prog.eq_of_reach_ret hq
    | ok a => exact ⟨a, e₁, w₁, hp, hq, fun q w₂ hq => (hp.bind (EngineM.andThen f)).trans hq⟩

/-- What a computation that leaves the table returns with. -/
theorem LeavesTable.reach {m : EngineM α} (hm : LeavesTable m) {e e' : Engine} {w w' : σ} {r : Except Errno α}
    (h : Prog.Reach S R (m e) w (.ret (r, e')) w') : SameTable e e' := (hm e).reach h

/-- An open that succeeds: the table gets one entry more, which denotes the file this open's own call opened. -/
theorem openHandle_opens {path : Bytes} {flags : OpenFlags} {e e' : Engine} {w w' : σ} {id : Int}
    (h : Prog.Reach S R (openHandle path flags e) w (.ret (.ok id, e')) w') :
    ∃ e₁ file, SameTable e e₁ ∧ id = e₁.nextHandle ∧ e' = e₁.addHandle ⟨some file, flags, normalizeRelative path⟩ ∧
      ∃ layer access k w₁ w₂,
        Prog.Reach S R (openHandle path flags e) w
          (.call (.openFile (e.layerPath layer (normalizeRelative path)) access) k) w₁ ∧
        S.step (.openFile (e.layerPath layer (normalizeRelative path)) access) w₁ (.ok file) w₂ ∧
        Prog.Reach S R (k (.ok file)) w₂ (.ret (.ok id, e')) w' := by
  obtain ⟨u₁, e₁, w₁, hr₁, h₁, hlift₁⟩ := reach_engine_bind h
  obtain ⟨layer₁, e₂, w₂, hr₂, h₂, hlift₂⟩ := reach_engine_bind h₁
  obtain ⟨layer, e₃, w₃, hr₃, h₃, hlift₃⟩ := reach_engine_bind h₂
  have hsame : SameTable e e₃ := ((leaves_refuse _ _).reach hr₁).trans (((leaves_createForOpen _ _).reach hr₂).trans
    ((leaves_truncateForOpen _ _ _).reach hr₃))
  have hpath : e₃.layerPath layer (normalizeRelative path) = e.layerPath layer (normalizeRelative path) := by
    cases layer with
    | upper => exact congrArg (· ++ normalizeRelative path) hsame.upperDir
    | base => exact congrArg (· ++ normalizeRelative path) hsame.baseDir
  rcases Prog.reach_call h₃ with heq | ⟨w₄, r, w₅, hbefore, hstep, hafter⟩
  · cases heq
  · cases r with
    | error x => cases Prog.eq_of_reach_ret hafter
    | ok file =>
      have hret := Prog.eq_of_reach_ret hafter
      cases hret
      rw [hpath] at hstep
      refine ⟨e₃, file, hsame, rfl, rfl, layer, _, fun r => ((Prog.ret r).bind (fun r => Prog.ret (r, e₃))).bind
        (EngineM.andThen (fun backing e => .ret (.ok e.nextHandle, e.addHandle ⟨some backing, flags, normalizeRelative path⟩))),
        w₄, w₅, ?_, hstep, hafter⟩
      rw [← hpath]
      exact hlift₁ _ _ (hlift₂ _ _ (hlift₃ _ _ hbefore))

/-- An open that fails leaves the table alone. -/
theorem openHandle_fails {path : Bytes} {flags : OpenFlags} {e e' : Engine} {w w' : σ} {x : Errno}
    (h : Prog.Reach S R (openHandle path flags e) w (.ret (.error x, e')) w') : SameTable e e' := by
  have honly : (openHandle path flags e).Only (fun _ => True) (fun r => ∀ x, r.1 = .error x → SameTable e r.2) := by
    refine only_engine_bind (leaves_refuse _ _ e) ?_ (fun x e' hsame _ _ => hsame)
    intro _ e₁ h₁
    refine only_engine_bind (leaves_createForOpen _ _ e₁) ?_ (fun x e' hsame _ _ => h₁.trans hsame)
    intro layer₁ e₂ h₂
    refine only_engine_bind (leaves_truncateForOpen _ _ _ e₂) ?_ (fun x e' hsame _ _ => (h₁.trans h₂).trans hsame)
    intro layer e₃ h₃
    refine only_engine_bind (leaves_reads _ e₃) ?_ (fun x e' hsame _ _ => ((h₁.trans h₂).trans h₃).trans hsame)
    intro file e₄ _ x hx
    cases hx
  exact honly.reach h x rfl

/-- The descriptor after a write has replaced the file: open when the reopening succeeds, and closed when it fails. -/
theorem reopenHandle_effect (fd : Int) (handle : OpenHandle) (e : Engine) : (reopenHandle fd handle e).Only (fun _ => True)
    (fun r => ∃ backing, r.2 = e.setBacking fd backing ∧ (r.1 = .ok () → ∃ file, backing = some file)) := by
  have hopen : (EngineM.attempt (EngineM.reads (fun e =>
      Io.call (.openFile (e.upperPath handle.relative) handle.flags.access))) e).Only (fun _ => True)
      (fun r => r.2 = e ∧ ∃ answer, r.1 = .ok answer) := ⟨trivial, fun r => ⟨rfl, r, rfl⟩⟩
  refine only_engine_bind hopen ?_ ?_
  · rintro answer e₁ ⟨heq, -⟩
    have hsame : e₁ = e := heq
    subst hsame
    cases answer with
    | ok file => exact ⟨some file, rfl, fun _ => ⟨file, rfl⟩⟩
    | error x => exact ⟨none, rfl, fun h => by cases h⟩
  · rintro x e₁ ⟨-, answer, hanswer⟩
    cases hanswer

/-- A write: the table is left alone, or the handle's descriptor was replaced; after a success it is open. -/
theorem writeHandle_effect {fd : Int} {data : Bytes} {offset : Nat} {e e' : Engine} {w w' : σ} {r : Except Errno Nat}
    (h : Prog.Reach S R (writeHandle fd data offset e) w (.ret (r, e')) w') :
    ∃ e₁, SameTable e e₁ ∧ ((e' = e₁ ∧ ∃ x, r = .error x) ∨ ∃ handle backing, e.findHandle fd = some handle ∧
      e' = e₁.setBacking fd backing ∧ ((∃ n, r = .ok n) → ∃ file, backing = some file)) := by
  unfold writeHandle at h
  split at h
  · cases Prog.eq_of_reach_ret h
    exact ⟨e, .refl e, Or.inl ⟨rfl, _, rfl⟩⟩
  · rename_i handle hfind
    have honly := only_engine_bind (f := fun _ => do
        let accepted ← publishAt .write handle.relative (copyAndChange handle.relative (writeStage data offset))
        reopenHandle fd handle
        return accepted)
      (Q := fun r => ∃ e₁, SameTable e e₁ ∧ ((r.2 = e₁ ∧ ∃ x, r.1 = .error x) ∨ ∃ handle backing,
        e.findHandle fd = some handle ∧ r.2 = e₁.setBacking fd backing ∧ ((∃ n, r.1 = .ok n) → ∃ file, backing = some file)))
      (leaves_refuse (handle.flags.access = .rdonly) .EBADF e) ?_ (fun x e₁ hsame => ⟨e₁, hsame, Or.inl ⟨rfl, x, rfl⟩⟩)
    · exact honly.reach h
    · intro _ e₁ h₁
      refine only_engine_bind (leaves_publishAt _ _ _ e₁) ?_ (fun x e₂ h₂ => ⟨e₂, h₁.trans h₂, Or.inl ⟨rfl, x, rfl⟩⟩)
      intro accepted e₂ h₂
      refine only_engine_bind (reopenHandle_effect fd handle e₂) ?_ ?_
      · rintro _ e₃ ⟨backing, heq, hopen⟩
        exact ⟨e₂, h₁.trans h₂, Or.inr ⟨handle, backing, hfind, heq, fun _ => hopen rfl⟩⟩
      · rintro x e₃ ⟨backing, heq, -⟩
        exact ⟨e₂, h₁.trans h₂, Or.inr ⟨handle, backing, hfind, heq, by rintro ⟨n, hn⟩; cases hn⟩⟩

/-- A computation that only changes the value of another. -/
theorem reach_engine_map {m : EngineM α} {f : α → β} {e e' : Engine} {w w' : σ} {r : Except Errno β}
    (h : Prog.Reach S R ((do return f (← m) : EngineM β) e) w (.ret (r, e')) w') :
    ∃ r', Prog.Reach S R (m e) w (.ret (r', e')) w' ∧ r = r'.map f := by
  have heq : (do return f (← m) : EngineM β) e = (m e).bind (fun r => .ret (r.1.map f, r.2)) := by
    refine congrArg (Prog.bind (m e)) (funext ?_)
    rintro ⟨r, e'⟩
    cases r <;> rfl
  rw [heq] at h
  obtain ⟨⟨r', e''⟩, hr, hret⟩ := Prog.reach_map h
  cases hret
  exact ⟨r', hr, rfl⟩

/-- What the calls of an open come to, the call of a run comes to. -/
theorem reach_engine_call {m : EngineM α} {f : α → β} {e e' : Engine} {w w₁ w₂ w' : σ} {γ : Type} {c : Call γ} {answer : γ}
    {k : Except Errno γ → Prog Call Errno (Except Errno α × Engine)} {a : α}
    (hbefore : Prog.Reach S R (m e) w (.call c k) w₁) (hstep : S.step c w₁ (.ok answer) w₂)
    (hafter : Prog.Reach S R (k (.ok answer)) w₂ (.ret (.ok a, e')) w') : ∃ k',
      Prog.Reach S R ((do return f (← m) : EngineM β) e) w (.call c k') w₁ ∧ S.step c w₁ (.ok answer) w₂ ∧
      Prog.Reach S R (k' (.ok answer)) w₂ (.ret (.ok (f a), e')) w' :=
  ⟨fun r => (k r).bind (EngineM.andThen (fun a => pure (f a))), hbefore.bind _, hstep, hafter.bind _⟩

variable (S R)

/-- What a call of a run does to the table: an open that succeeds adds an entry, a close takes one away, a write may replace a
descriptor, and everything else leaves the table alone. -/
inductive Effect (s : HandleStep σ) : Prop where
  | opened {path flags e₁ file} (hop : s.op = .openHandle path flags) (hsame : SameTable s.before e₁)
      (hanswer : s.answer = .ok (.opened e₁.nextHandle))
      (hafter : s.after = e₁.addHandle ⟨some file, flags, normalizeRelative path⟩)
      (hopens : ∃ layer access k w₁ w₂,
        Prog.Reach S R (s.op.perform s.before) s.start
          (.call (.openFile (s.before.layerPath layer (normalizeRelative path)) access) k) w₁ ∧
        S.step (.openFile (s.before.layerPath layer (normalizeRelative path)) access) w₁ (.ok file) w₂ ∧
        Prog.Reach S R (k (.ok file)) w₂ (.ret (s.answer, s.after)) s.finish)
  | closed {fd} (hop : s.op = .closeHandle fd) (hquiet : s.opens = false) (hnext : s.after.nextHandle = s.before.nextHandle)
      (hafter : s.after.handles = s.before.handles.filter (fun entry => entry.1 ≠ fd))
  | wrote {fd data offset handle e₁ backing} (hop : s.op = .writeHandle fd data offset) (hquiet : s.opens = false)
      (hfind : s.before.findHandle fd = some handle) (hsame : SameTable s.before e₁)
      (hafter : s.after = e₁.setBacking fd backing)
      (hopen : (∃ n, s.answer = .ok (.accepted n)) → ∃ file, backing = some file)
  | quiet (hquiet : s.opens = false) (hsame : SameTable s.before s.after) (hopens : ∀ path flags id,
      s.op = .openHandle path flags → s.answer ≠ .ok (.opened id))
      (hwrites : ∀ fd data offset n, s.op = .writeHandle fd data offset → s.answer ≠ .ok (.accepted n))

variable {S R}

theorem effect_of_performs {s : HandleStep σ} (h : s.Performs S R) : Effect S R s := by
  obtain ⟨op, before, start, answer, after, finish⟩ := s
  cases op with
  | openHandle path flags =>
    obtain ⟨r, hr, hanswer⟩ := reach_engine_map (f := HandleAnswer.opened) h
    cases r with
    | error x =>
      refine .quiet ?_ (openHandle_fails hr) ?_ ?_
      · rw [HandleStep.opens, hanswer]
        rfl
      · intro _ _ _ _ hok
        rw [hanswer] at hok
        cases hok
      · intro _ _ _ _ hop
        cases hop
    | ok id =>
      obtain ⟨e₁, file, hsame, hid, hafter, layer, access, k, w₁, w₂, hbefore, hstep, hrest⟩ := openHandle_opens hr
      obtain ⟨k', hcall⟩ := reach_engine_call (f := HandleAnswer.opened) hbefore hstep hrest
      subst hid
      subst hanswer
      exact .opened rfl hsame rfl hafter ⟨layer, access, k', w₁, w₂, hcall⟩
  | readHandle fd size offset =>
    obtain ⟨r, hr, hanswer⟩ := reach_engine_map (f := HandleAnswer.bytes) h
    refine .quiet ?_ ((leaves_reads _).reach hr) (fun _ _ _ hop => by cases hop) (fun _ _ _ _ hop => by cases hop)
    rw [HandleStep.opens, hanswer]
    cases r <;> rfl
  | writeHandle fd data offset =>
    obtain ⟨r, hr, hanswer⟩ := reach_engine_map (f := HandleAnswer.accepted) h
    have hquiet : HandleStep.opens ⟨.writeHandle fd data offset, before, start, answer, after, finish⟩ = false := by
      rw [HandleStep.opens, hanswer]
      cases r <;> rfl
    obtain ⟨e₁, hsame, ⟨hafter, x, hx⟩ | ⟨handle, backing, hfind, hafter, hopen⟩⟩ := writeHandle_effect hr
    · refine .quiet hquiet (hafter ▸ hsame) (fun _ _ _ hop => by cases hop) ?_
      intro _ _ _ _ _ hok
      rw [hanswer, hx] at hok
      cases hok
    · refine .wrote rfl hquiet hfind hsame hafter ?_
      rintro ⟨n, hn⟩
      rw [hanswer] at hn
      cases r with
      | error x => cases hn
      | ok count => exact hopen ⟨count, rfl⟩
  | fsyncHandle fd dataOnly =>
    obtain ⟨r, hr, hanswer⟩ := reach_engine_map (f := fun _ => HandleAnswer.done) h
    refine .quiet ?_ ((leaves_reads _).reach hr) (fun _ _ _ hop => by cases hop) (fun _ _ _ _ hop => by cases hop)
    rw [HandleStep.opens, hanswer]
    cases r <;> rfl
  | closeHandle fd =>
    have hret : (answer, after) = (.ok .done, { before with handles := before.handles.filter (fun entry => entry.1 ≠ fd) }) :=
      Prog.eq_of_reach_ret h
    cases hret
    exact .closed rfl rfl rfl rfl

/-- The counter goes up by one with every id given out, and stays above every id in the table. -/
theorem Effect.ordered {s : HandleStep σ} (h : Effect S R s) (hord : Ordered s.before) :
    Ordered s.after ∧ s.after.nextHandle = s.before.nextHandle + (if s.opens then 1 else 0) := by
  cases h with
  | @opened path flags e₁ file hop hsame hanswer hafter _ =>
    have hopens : s.opens = true := by
      rw [HandleStep.opens, hanswer]
    rw [hafter, hopens, ← hsame.nextHandle]
    exact ⟨ordered_addHandle (ordered_congr hord hsame.handles hsame.nextHandle) _, rfl⟩
  | closed hop hquiet hnext hafter =>
    refine ⟨?_, by simp [hquiet, hnext]⟩
    intro entry hmem
    rw [hafter] at hmem
    rw [hnext]
    exact hord entry (List.mem_filter.mp hmem).1
  | @wrote fd data offset handle e₁ backing hop hquiet hfind hsame hafter hopen =>
    refine ⟨?_, by simp [hquiet, hafter, Engine.setBacking, hsame.nextHandle]⟩
    intro entry hmem
    rw [hafter] at hmem ⊢
    obtain ⟨old, hold, rfl⟩ := List.mem_map.mp hmem
    have hlt := ordered_congr hord hsame.handles hsame.nextHandle old hold
    have hkey : (if old.1 = fd then (old.1, { old.2 with backing := backing }) else old).1 = old.1 := by split <;> rfl
    rw [hkey]
    exact hlt
  | quiet hquiet hsame _ _ => exact ⟨ordered_congr hord hsame.handles hsame.nextHandle, by simp [hquiet, hsame.nextHandle]⟩

/-- A call on an ordered table is intact as long as the counter stays an `int`. -/
theorem Effect.intact {s : HandleStep σ} (h : Effect S R s) (hord : Ordered s.before)
    (hbound : 1 ≤ s.after.nextHandle ∧ s.after.nextHandle ≤ kIntMax) : s.Intact S R := by
  cases h with
  | @opened path flags e₁ file hop hsame hanswer hafter hdescriptor =>
    have hord₁ := ordered_congr hord hsame.handles hsame.nextHandle
    refine ⟨?_, ?_, ?_, hbound⟩
    · intro path' flags' id hop' hanswer'
      rw [hop] at hop'
      cases hop'
      rw [hanswer] at hanswer'
      cases hanswer'
      refine ⟨?_, file, ?_, hdescriptor⟩
      · rw [← findHandle_congr hsame.handles]
        exact findHandle_next hord₁
      · rw [hafter]
        exact findHandle_addHandle_self hord₁ _
    · intro id handle hfind _
      refine ⟨handle.backing, ?_⟩
      rw [← findHandle_congr hsame.handles] at hfind
      rw [hafter]
      exact findHandle_addHandle_old hord₁ _ hfind
    · intro fd data offset n hop'
      rw [hop] at hop'
      cases hop'
  | @closed fd hop hquiet hnext hafter =>
    refine ⟨?_, ?_, ?_, hbound⟩
    · intro path flags id hop'
      rw [hop] at hop'
      cases hop'
    · intro id handle hfind hne
      refine ⟨handle.backing, ?_⟩
      have hid : id ≠ fd := by
        rintro rfl
        exact hne hop
      rw [findHandle_filter hid hafter]
      exact hfind
    · intro fd' data offset n hop'
      rw [hop] at hop'
      cases hop'
  | @wrote fd data offset handle e₁ backing hop hquiet hfind hsame hafter hopen =>
    refine ⟨?_, ?_, ?_, hbound⟩
    · intro path flags id hop'
      rw [hop] at hop'
      cases hop'
    · intro id handle' hfind' _
      rw [hafter, findHandle_setBacking, findHandle_congr hsame.handles, hfind']
      by_cases hid : id = fd
      · exact ⟨backing, by simp [hid]⟩
      · exact ⟨handle'.backing, by simp [hid]⟩
    · intro fd' data' offset' n hop' hanswer
      rw [hop] at hop'
      cases hop'
      obtain ⟨file, rfl⟩ := hopen ⟨n, hanswer⟩
      refine ⟨{ handle with backing := some file }, file, ?_, rfl⟩
      rw [hafter, findHandle_setBacking, findHandle_congr hsame.handles, hfind]
      simp
  | quiet hquiet hsame hopens hwrites =>
    refine ⟨?_, ?_, ?_, hbound⟩
    · intro path flags id hop hanswer
      exact absurd hanswer (hopens path flags id hop)
    · intro id handle hfind _
      refine ⟨handle.backing, ?_⟩
      rw [findHandle_congr hsame.handles]
      exact hfind
    · intro fd data offset n hop hanswer
      exact absurd hanswer (hwrites fd data offset n hop)

/-! ## Runs -/

/-- The counter counts the ids given out, and stays above every id in the table. -/
theorem run_ordered {e₀ e : Engine} {steps : List (HandleStep σ)} (hempty : e₀.handles = []) (hfirst : e₀.nextHandle = 1)
    (h : HandleRun S R e₀ steps e) : Ordered e ∧ e.nextHandle = 1 + (steps.countP (·.opens) : Nat) := by
  induction h with
  | start =>
    refine ⟨?_, by simp [hfirst]⟩
    intro entry hmem
    rw [hempty] at hmem
    cases hmem
  | step s _ hhandles hnext hperforms ih =>
    obtain ⟨hord, hcount⟩ := ih
    obtain ⟨hafter, hstep⟩ := (effect_of_performs hperforms).ordered (ordered_congr hord hhandles hnext)
    refine ⟨hafter, ?_⟩
    rw [hstep, hnext, hcount, List.countP_append, List.countP_singleton]
    split <;> push_cast <;> omega

/-- While fewer ids were given out than an `int` can number every call is intact. -/
theorem run_intact {e₀ e : Engine} {steps : List (HandleStep σ)} (hempty : e₀.handles = []) (hfirst : e₀.nextHandle = 1)
    (h : HandleRun S R e₀ steps e) (hbound : steps.countP (·.opens) < 2147483647) : ∀ s ∈ steps, s.Intact S R := by
  induction h with
  | start => exact fun _ hs => by cases hs
  | @step steps e s hrun hhandles hnext hperforms ih =>
    have hafter := (run_ordered hempty hfirst (hrun.step s hhandles hnext hperforms)).2
    rw [List.countP_append] at hbound
    intro t ht
    rcases List.mem_append.mp ht with ht | ht
    · exact ih (by omega) t ht
    · rw [List.mem_singleton] at ht
      subst ht
      refine (effect_of_performs hperforms).intact (ordered_congr (run_ordered hempty hfirst hrun).1 hhandles hnext) ?_
      rw [hafter, List.countP_append, kIntMax]
      push_cast
      omega

/-- The counter stays an `int` where no id is given out at the largest one. -/
theorem run_bounded {e₀ e : Engine} {steps : List (HandleStep σ)} (hempty : e₀.handles = []) (hfirst : e₀.nextHandle = 1)
    (h : HandleRun S R e₀ steps e) (hbelow : ∀ s ∈ steps, s.opens = true → s.before.nextHandle < kIntMax) :
    e.nextHandle ≤ kIntMax := by
  induction h with
  | start =>
    rw [hfirst, kIntMax]
    omega
  | @step steps e s hrun hhandles hnext hperforms ih =>
    have hbefore := ih (fun t ht => hbelow t (List.mem_append_left _ ht))
    have hord := ordered_congr (run_ordered hempty hfirst hrun).1 hhandles hnext
    rw [((effect_of_performs hperforms).ordered hord).2]
    split
    · rename_i hopens
      have hlt := hbelow s (by simp) hopens
      omega
    · omega

/-- The counter before a call of the run that gives out an id is one less than after it. -/
theorem run_opens {e₀ e : Engine} {steps : List (HandleStep σ)} (hempty : e₀.handles = []) (hfirst : e₀.nextHandle = 1)
    (h : HandleRun S R e₀ steps e) : ∀ s ∈ steps, s.opens = true → s.after.nextHandle = s.before.nextHandle + 1 := by
  induction h with
  | start => exact fun _ hs => by cases hs
  | @step steps e s hrun hhandles hnext hperforms ih =>
    intro t ht hopens
    rcases List.mem_append.mp ht with ht | ht
    · exact ih t ht hopens
    · rw [List.mem_singleton] at ht
      subst ht
      have hord := ordered_congr (run_ordered hempty hfirst hrun).1 hhandles hnext
      have hcount := ((effect_of_performs hperforms).ordered hord).2
      rw [if_pos hopens] at hcount
      exact hcount

/-- An id given out and not closed since denotes the path and flags it was opened with. -/
theorem run_lives {e₀ e : Engine} {steps : List (HandleStep σ)} (h : HandleRun S R e₀ steps e)
    (hintact : ∀ s ∈ steps, s.Intact S R) (earlier : List (HandleStep σ)) (s : HandleStep σ) (later : List (HandleStep σ))
    (path : Bytes) (flags : OpenFlags) (id : Int) (hsteps : steps = earlier ++ s :: later)
    (hop : s.op = .openHandle path flags) (hanswer : s.answer = .ok (.opened id)) (hopen : ∀ t ∈ later, t.op ≠ .closeHandle id) :
    ∃ backing, e.findHandle id = some ⟨backing, flags, normalizeRelative path⟩ := by
  induction h generalizing later with
  | start => simp at hsteps
  | @step steps e last hrun hhandles hnext hperforms ih =>
    rcases List.eq_nil_or_concat later with rfl | ⟨later, t, rfl⟩
    · obtain ⟨-, hlast⟩ := List.append_inj' hsteps rfl
      have hlast : last = s := List.singleton_inj.mp hlast
      subst hlast
      obtain ⟨-, file, hfile, -⟩ := (hintact last (by simp)).fresh path flags id hop hanswer
      exact ⟨some file, hfile⟩
    · rw [List.concat_eq_append] at hsteps hopen
      rw [← List.cons_append, ← List.append_assoc] at hsteps
      obtain ⟨hrest, hlast⟩ := List.append_inj' hsteps rfl
      have hlast : last = t := List.singleton_inj.mp hlast
      subst hlast
      obtain ⟨backing, hfind⟩ := ih (fun x hx => hintact x (by simp [hx])) later hrest (fun x hx => hopen x (by simp [hx]))
      rw [← findHandle_congr hhandles] at hfind
      exact (hintact last (by simp)).kept id _ hfind (hopen last (by simp))

end calls

end TableAux

open TableAux

/-- A run of handle calls on a new engine keeps the integrity of its table exactly when every open that succeeds finds the
counter below the largest `int`, which is when fewer than `2 ^ 31 - 1` opens succeed. -/
theorem handle_table {σ : Type} {S : Semantics Call Errno σ} {R : σ → σ → Prop} {e₀ e : Engine} {steps : List (HandleStep σ)}
    (hempty : e₀.handles = []) (hfirst : e₀.nextHandle = 1) (hrun : HandleRun S R e₀ steps e) :
    (TableIntegrity S R steps e ↔ ∀ s ∈ steps, s.opens = true → s.before.nextHandle < kIntMax) ∧
    (TableIntegrity S R steps e ↔ steps.countP (·.opens) < 2147483647) := by
  have hcount := (run_ordered hempty hfirst hrun).2
  have hfew : steps.countP (·.opens) < 2147483647 → TableIntegrity S R steps e := by
    intro hbound
    have hintact := run_intact hempty hfirst hrun hbound
    exact ⟨hintact, run_lives hrun hintact⟩
  have hbelow : TableIntegrity S R steps e → ∀ s ∈ steps, s.opens = true → s.before.nextHandle < kIntMax := by
    intro hintegrity s hs hopens
    have hbound := (hintegrity.intact s hs).bounded.2
    have hnext := run_opens hempty hfirst hrun s hs hopens
    omega
  have hcounted : (∀ s ∈ steps, s.opens = true → s.before.nextHandle < kIntMax) → steps.countP (·.opens) < 2147483647 := by
    intro hopens
    have hbound := run_bounded hempty hfirst hrun hopens
    rw [hcount, kIntMax] at hbound
    omega
  exact ⟨⟨hbelow, fun hopens => hfew (hcounted hopens)⟩, ⟨fun hintegrity => hcounted (hbelow hintegrity), hfew⟩⟩

/-! ## A counter that runs out -/

namespace HandleWitness

/-- An empty upper tree at `/u` over a Base with one file `a`. -/
def world : World where
  host := {
    tree := ⟨[([[117]], ⟨.dir, ⟨3, 493, 0, 0, 0⟩⟩), ([[98]], ⟨.dir, ⟨4, 493, 0, 0, 0⟩⟩),
      ([[98], [97]], ⟨.file [104], ⟨5, 420, 0, 0, 0⟩⟩)]⟩
    nextIno := 6, now := 5, umask := 18 }
  store := { committed := {} }

def engine : Engine := { workspace := [119], inodeSalt := 1, baseDir := [[98]], upperDir := [[117]] }

/-- The file `a`, opened. -/
def handle : OpenHandle := ⟨some ⟨⟨.file [104], ⟨5, 420, 0, 0, 0⟩⟩, .rdonly⟩, {}, [[97]]⟩

/-- The engine with another table. -/
def withTable (handles : List (Int × OpenHandle)) (next : Int) : Engine := { engine with handles := handles, nextHandle := next }

/-- The file opens, whatever the table holds. -/
theorem opens (handles : List (Int × OpenHandle)) (next : Int) :
    (openHandle [97] {} (withTable handles next)).run exec world =
      ((.ok next, (withTable handles next).addHandle handle), world) := rfl

/-- One more open on a table that has given out `n` ids. -/
def openStep (handles : List (Int × OpenHandle)) (n : Nat) : HandleStep World :=
  ⟨.openHandle [97] {}, withTable handles (1 + n), world, .ok (.opened (1 + n)), (withTable handles (1 + n)).addHandle handle, world⟩

theorem openStep_performs (handles : List (Int × OpenHandle)) (n : Nat) : (openStep handles n).Performs (hosts noFaults) Eq :=
  Prog.reach_run exec (fun c w => hosts_exec noFaults c w) _ _ .refl

theorem openStep_next (handles : List (Int × OpenHandle)) (n : Nat) :
    (openStep handles n).after.nextHandle = 1 + ((n + 1 : Nat) : Int) := by
  have hnext : (openStep handles n).after.nextHandle = 1 + (n : Int) + 1 := rfl
  rw [hnext]
  push_cast
  omega

/-- Any number of opens can succeed one after the other. -/
theorem runs (n : Nat) : ∃ steps handles, HandleRun (hosts noFaults) Eq engine steps (withTable handles (1 + n)) ∧
    (0 < n → ∃ s ∈ steps, s.after.nextHandle = 1 + n) := by
  induction n with
  | zero => exact ⟨[], [], .start, fun h => absurd h (lt_irrefl 0)⟩
  | succ n ih =>
    obtain ⟨steps, handles, hrun, -⟩ := ih
    have hafter : (openStep handles n).after = withTable (openStep handles n).after.handles (1 + ((n + 1 : Nat) : Int)) := by
      rw [← openStep_next handles n]
      rfl
    have hnext := hrun.step (openStep handles n) rfl rfl (openStep_performs handles n)
    rw [hafter] at hnext
    exact ⟨_, _, hnext, fun _ => ⟨openStep handles n, by simp, openStep_next handles n⟩⟩

end HandleWitness

open HandleWitness in
/-- After `2 ^ 31 - 1` opens that succeed the counter is past the largest `int`. -/
theorem handle_counter_overflows : ∃ steps e, HandleRun (hosts noFaults) Eq engine steps e ∧
    (∃ s ∈ steps, kIntMax < s.after.nextHandle) ∧ ¬TableIntegrity (hosts noFaults) Eq steps e := by
  obtain ⟨steps, handles, hrun, hlast⟩ := runs 2147483647
  obtain ⟨s, hs, hnext⟩ := hlast (by omega)
  have hover : kIntMax < s.after.nextHandle := by
    rw [hnext, kIntMax]
    omega
  exact ⟨steps, _, hrun, ⟨s, hs, hover⟩, fun hintegrity => absurd (hintegrity.intact s hs).bounded.2 (not_le.mpr hover)⟩

namespace HandleWitness

/-- A call that nothing hinders. -/
def performed (op : HandleOp) (e : Engine) (w : World) : HandleStep World :=
  let r := (op.perform e).run exec w
  ⟨op, e, w, r.1.1, r.1.2, r.2⟩

theorem performed_performs (op : HandleOp) (e : Engine) (w : World) : (performed op e w).Performs (hosts noFaults) Eq :=
  Prog.reach_run exec (fun c w => hosts_exec noFaults c w) _ _ .refl

/-- The file is opened to be read and to be written, is written, and the first handle is closed. -/
def first : HandleStep World := performed (.openHandle [97] {}) engine world
def second : HandleStep World := performed (.openHandle [97] { access := .rdwr }) first.after first.finish
def third : HandleStep World := performed (.writeHandle 2 [105] 1) second.after second.finish
def fourth : HandleStep World := performed (.closeHandle 1) third.after third.finish

theorem session_runs : HandleRun (hosts noFaults) Eq engine [first, second, third, fourth] fourth.after :=
  (((HandleRun.start.step first rfl rfl (performed_performs ..)).step second rfl rfl (performed_performs ..)).step third rfl rfl
    (performed_performs ..)).step fourth rfl rfl (performed_performs ..)

end HandleWitness

open HandleWitness in
/-- The two handles have ids of their own, and the second is still open after the write that replaced its file. -/
theorem handle_table_session : [first, second, third, fourth].map (·.answer) =
      [.ok (.opened 1), .ok (.opened 2), .ok (.accepted 1), .ok .done] ∧
    TableIntegrity (hosts noFaults) Eq [first, second, third, fourth] fourth.after :=
  ⟨by decide +kernel, (@handle_table _ _ _ engine _ _ rfl rfl session_runs).2.mpr (by decide +kernel)⟩

end TribiosVfs

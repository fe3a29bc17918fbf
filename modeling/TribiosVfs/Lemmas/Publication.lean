import TribiosVfs.Lib.Forest
import TribiosVfs.Lemmas.Alone
import TribiosVfs.Lemmas.Edits
import TribiosVfs.Lemmas.Homes

/-!
# What the engine's operations publish

The journaled publication of an entry and the removal of one, run alone with no call failing: where they end, what is then at the
path, and that nothing else has changed. The entry published is whatever the stage was prepared to be.
-/

namespace TribiosVfs

/-- A Workspace whose operations nothing hinders. -/
structure Ready (e : Engine) (w : World) : Prop where
  home : Home e w
  quiet : w.env = {}
  closed : w.store.openTx = none

/-- It does not depend on the rest of the engine's memory. -/
theorem Ready.of_dirs {e e' : Engine} {w : World} (h : Ready e w) (hu : e'.upperDir = e.upperDir) (hb : e'.baseDir = e.baseDir) :
    Ready e' w := by
  obtain ⟨⟨⟨h1, h2, h3, h4, h5, h6, h7⟩, hwf, hupper, hbase, hrecovery, hfresh⟩, hq, hc⟩ := h
  have hdir : e'.workspaceDir = e.workspaceDir := congrArg parentPath hu
  have hrec : e'.recoveryDir = e.recoveryDir := congrArg (· ++ [recoveryName]) hdir
  refine ⟨⟨⟨hu ▸ h1, hu ▸ h2, hu ▸ h3, hb ▸ h4, hb ▸ h5, by rw [hdir, hb]; exact h6, by rw [hdir, hb]; exact h7⟩, hwf, hu ▸ hupper,
    hb ▸ hbase, by rw [hrec]; exact hrecovery, fun id hid => ?_⟩, hq, hc⟩
  rw [Engine.stagePath, hrec]
  exact hfresh id hid

/-- What the moves of one operation keep: all but a set of paths looks as it did. -/
structure Kept (e : Engine) (R : HostPath → Prop) (w w' : World) : Prop where
  wf : w'.host.tree.WF
  look : ∀ q, ¬R q → w'.host.tree.look e.workspaceDir q = w.host.tree.look e.workspaceDir q
  env : w'.env = w.env
  closed : w.store.openTx = none → w'.store.openTx = none
  nextId : w.store.visible.nextId ≤ w'.store.visible.nextId
  umask : w'.host.umask = w.host.umask
  now : w'.host.now = w.host.now

namespace Kept

variable {e : Engine} {R R' : HostPath → Prop} {w w' w'' : World}

theorem refl (hw : w.host.tree.WF) : Kept e R w w := ⟨hw, fun _ _ => rfl, rfl, id, le_rfl, rfl, rfl⟩

theorem mono (h : Kept e R w w') (hR : ∀ q, R q → R' q) : Kept e R' w w' :=
  { h with look := fun q hq => h.look q (fun hr => hq (hR q hr)) }

theorem trans (h : Kept e R w w') (h' : Kept e R w' w'') : Kept e R w w'' where
  wf := h'.wf
  look q hq := (h'.look q hq).trans (h.look q hq)
  env := h'.env.trans h.env
  closed ho := h'.closed (h.closed ho)
  nextId := h.nextId.trans h'.nextId
  umask := h'.umask.trans h.umask
  now := h'.now.trans h.now

/-- An edit of the host within the Workspace's directory. -/
theorem edit {p : HostPath} {h' : Host} (he : Edit p w.host h') (ho : e.workspaceDir <+: p.dropLast) :
    Kept e (p <+: ·) w { w with host := h' } :=
  ⟨he.wf, fun _ hq => he.look ho hq, rfl, id, le_rfl, he.umask, he.now⟩

/-- Rows of the store have changed. -/
theorem stored (hw : w.host.tree.WF) {s : Store} (hc : w.store.openTx = none → s.openTx = none)
    (hn : w.store.visible.nextId ≤ s.visible.nextId) : Kept e R w { w with store := s } :=
  ⟨hw, fun _ _ => rfl, rfl, hc, hn, rfl, rfl⟩

theorem of_dir {e' : Engine} (h : Kept e R w w') (hd : e'.workspaceDir = e.workspaceDir) : Kept e' R w w' :=
  { h with look := by rw [hd]; exact h.look }

theorem isDirAt_eq (h : Kept e R w w') {q : HostPath} (hq : ¬R q) : isDirAt w'.host.tree q = isDirAt w.host.tree q :=
  isDirAt_of_look (h.look q hq)

theorem get_none (h : Kept e R w w') {q : HostPath} (hq : ¬R q) : w'.host.tree.get q = none ↔ w.host.tree.get q = none :=
  get_none_of_look (h.look q hq)

end Kept

namespace PublicationAux

/-! ## Calls that nothing hinders -/

section calls

variable {α β ε : Type} {w : World}

/-- A call that changes nothing and succeeds. -/
theorem ends_quiet {c : Call α} {a : α} {X : Errno → World → Prop} (hc : c.reads = true) (h : (exec c w).1 = .ok a) :
    Ends (Io.call c) w (fun b w' => b = a ∧ w' = w) X := by
  refine ends_call ?_
  rw [h]
  exact ⟨rfl, exec_reads hc w⟩

theorem ends_injected {X : Errno → World → Prop} (hq : w.env = {}) (b : Boundary) :
    Ends (Io.call (.injectedIoError b)) w (fun _ w' => w' = w) X := by
  refine (ends_quiet (a := ()) rfl ?_).mono (fun _ _ h => h.2) (fun _ _ h => h)
  rw [exec, hq]

theorem ends_fsyncDirectory {X : Errno → World → Prop} (hw : w.host.tree.WF) {p : HostPath} (hp : Ordinary p)
    (hd : isDirAt w.host.tree p = true) : Ends (Io.call (.fsyncDirectory p)) w (fun _ w' => w' = w) X := by
  refine (ends_quiet (a := ()) rfl ?_).mono (fun _ _ h => h.2) (fun _ _ h => h)
  change (w.host.fsyncDirectory p).1 = .ok ()
  rw [fsyncDirectory_dir hw hp hd]

theorem ends_lstatPath {X : ε → World → Prop} (hw : w.host.tree.WF) {p : HostPath} (hc : Clear w.host.tree p) :
    Ends (lstatPath p) w (fun st w' => st = w.host.tree.get p ∧ w' = w) X := by
  refine ends_of_run (Runs.run_lstat w p) ?_
  exact ⟨lstat_clear hw hc, rfl⟩

theorem ends_lstat {X : Errno → World → Prop} (hw : w.host.tree.WF) {p : HostPath} {n : Node} (hn : w.host.tree.get p = some n) :
    Ends (Io.call (.lstat p)) w (fun st w' => st = n ∧ w' = w) X := by
  refine ends_quiet rfl ?_
  change (w.host.lstat p).1 = .ok n
  rw [Host.lstat, atNode_some hw hn (fun hf => by cases hf)]

theorem ends_forEach {f : α → Fallible ε Unit} {as : List α} {X : ε → World → Prop}
    (hf : ∀ a ∈ as, Ends (f a) w (fun _ w' => w' = w) X) : Ends (Fallible.forEach f as) w (fun _ w' => w' = w) X := by
  induction as with
  | nil => exact ends_pure rfl
  | cons a as ih =>
    refine ends_bind (hf a List.mem_cons_self) (fun _ w' hw' => ?_)
    subst hw'
    exact ih (fun b hb => hf b (List.mem_cons_of_mem _ hb))

/-- `sync_entry_tree` of an entry that is there. -/
theorem syncEntryTree_ends {X : Errno → World → Prop} (hw : w.host.tree.WF) {p : HostPath} {n : Node}
    (hn : w.host.tree.get p = some n) : Ends (syncEntryTree p) w (fun _ w' => w' = w) X := by
  have hs : (w.host.tree.get p).isSome := by rw [hn]; rfl
  have hp := hw.ordinary p hs
  have hfile : ∀ q m, w.host.tree.get q = some m → m.isReg = true →
      Ends (Io.call (.fsyncFile q)) w (fun _ w' => w' = w) X := by
    intro q m hm hreg
    refine (ends_quiet (a := ()) rfl ?_).mono (fun _ _ h => h.2) (fun _ _ h => h)
    change (w.host.fsyncFile q).1 = .ok ()
    rw [Host.fsyncFile, atNode_some hw hm]
    unfold Node.isReg at hreg
    unfold Node.isLnk
    cases hc : m.contents <;> simp_all
  have hdir : ∀ q m, w.host.tree.get q = some m → m.isDir = true →
      Ends (Io.call (.fsyncDirectory q)) w (fun _ w' => w' = w) X := by
    intro q m hm hd
    have hne : q ≠ [] := by
      rintro rfl
      rw [hw.get_nil] at hm
      cases hm
    exact ends_fsyncDirectory hw (hw.ordinary q (by rw [hm]; rfl)) ((isDirAt_iff hne).mpr ⟨m, hm, hd⟩)
  unfold syncEntryTree
  refine ends_bind (ends_lstat hw hn) (fun st w' hst => ?_)
  obtain ⟨rfl, rfl⟩ := hst
  split
  · rename_i hreg
    exact hfile p st hn hreg
  · split
    · rename_i hd
      have hlist : (exec (.listTree p) w').1 =
          .ok ((w'.host.tree.keysUnder p).filterMap (fun r => (w'.host.tree.get r).map (r, ·))) := by
        change (w'.host.listTree p).1 = _
        rw [listTree_real hw hp (hw.isDirAt_parent hs)]
      have hattempt : ((Io.call (.listTree p)).attempt : Io _).run exec w' = (.ok (exec (.listTree p) w').1, w') :=
        congrArg (fun w'' => (Except.ok (exec (.listTree p) w').1, w'')) (exec_reads rfl w')
      refine ends_bind (R := fun r w'' => r = (exec (.listTree p) w').1 ∧ w'' = w') (ends_of_run hattempt ⟨rfl, rfl⟩)
        (fun r w'' hr => ?_)
      obtain ⟨rfl, rfl⟩ := hr
      rw [hlist]
      refine ends_forEach (fun entry hentry => ?_)
      obtain ⟨r, hr, heq⟩ := List.mem_filterMap.mp hentry
      obtain ⟨m, hm, rfl⟩ := Option.map_eq_some_iff.mp heq
      dsimp only
      split
      · exact hfile r m hm ‹_›
      · split
        · exact hdir r m hm ‹_›
        · exact ends_pure rfl
    · exact ends_pure rfl

end calls

/-! ## Paths of a Workspace -/

section paths

variable {e : Engine} (hp : e.Placed)

include hp

theorem upper_ordinary {r : RelPath} (hr : Ordinary r) : Ordinary (e.upperPath r) := hp.upper.append hr

theorem upperPath_ne (r : RelPath) : e.upperPath r ≠ [] := by simp [Engine.upperPath, hp.upper_ne]

theorem not_recovery_upper (r : RelPath) : ¬e.recoveryDir <+: e.upperPath r :=
  fun h => hp.not_both (List.prefix_append _ _) h

omit hp in
theorem not_recovery_workspace : ¬e.recoveryDir <+: e.workspaceDir := by
  intro h
  have := h.length_le
  simp [Engine.recoveryDir, Engine.workspaceDir] at this

omit hp in
theorem upperPath_dropLast (r : RelPath) :
    (e.upperPath r).dropLast = e.workspaceDir ∨ ∃ r', (e.upperPath r).dropLast = e.upperPath r' ∧ r' = r.dropLast ∧ r ≠ [] := by
  by_cases h0 : r = []
  · left
    rw [h0, Engine.upperPath, List.append_nil]
    rfl
  · exact Or.inr ⟨r.dropLast, List.dropLast_append_of_ne_nil h0, rfl, h0⟩

/-- The directory of an entry of the upper tree lies in the Workspace's directory, outside of the recovery directory. -/
theorem own_upper_parent (r : RelPath) :
    e.workspaceDir <+: (e.upperPath r).dropLast ∧ ¬e.recoveryDir <+: (e.upperPath r).dropLast := by
  rcases @upperPath_dropLast e r with he | ⟨r', he, -, -⟩
  · rw [he]
    exact ⟨List.prefix_refl _, not_recovery_workspace⟩
  · rw [he]
    exact ⟨hp.own_upper (List.prefix_append _ _), not_recovery_upper hp r'⟩

theorem not_upper_recovery (r : RelPath) : ¬e.upperPath r <+: e.recoveryDir :=
  fun h => hp.not_both ((List.prefix_append _ _).trans h) (List.prefix_refl _)

omit hp in
theorem stage_dropLast (id : Nat) : (e.stagePath id).dropLast = e.recoveryDir := List.dropLast_concat

theorem stage_upper_apart (id : Nat) (r : RelPath) {q : HostPath} (hs : e.stagePath id <+: q) (hu : e.upperPath r <+: q) : False :=
  hp.not_both ((List.prefix_append _ _).trans hu) ((Engine.Placed.recovery_stage id).trans hs)

end paths

theorem workspace_isDir {e : Engine} {w : World} (hh : Home e w) : isDirAt w.host.tree e.workspaceDir = true :=
  hh.wf.isDirAt_initial hh.upper (List.dropLast_prefix _)

theorem ensureDirectory_edit {h : Host} (hw : h.tree.WF) {p : HostPath} (hne : p ≠ []) (hp : Ordinary p)
    (hd : isDirAt h.tree p.dropLast = true) (hdir : ∀ n, h.tree.get p = some n → n.isDir = true) :
    ∃ h', h.ensureDirectory p = (.ok (), h') ∧ Edit p h h' ∧ isDirAt h'.tree p = true ∧
      ∀ q, q ≠ p → q ≠ p.dropLast → h'.tree.get q = h.tree.get q := by
  rw [ensureDirectory_real hw hne hp hd (fun n hn => Node.isLnk_of_isDir (hdir n hn))]
  cases hn : h.tree.get p with
  | some n => exact ⟨h, by simp [hdir n hn], Edit.refl hw p, (isDirAt_iff hne).mpr ⟨n, hn, hdir n hn⟩, fun _ _ _ => rfl⟩
  | none =>
    refine ⟨_, rfl, edit_addEntry hw hne hp hd hn _ _, ?_, fun q hq hqd => ?_⟩
    · rw [isDirAt_iff hne, addEntry_get h hne, if_pos rfl]
      exact ⟨_, rfl, rfl⟩
    · rw [addEntry_get h hne, if_neg hq, if_neg hqd]

end PublicationAux

open PublicationAux

/-! ## The stage -/

/-- The entries at and beneath a path. -/
def Tree.sub (t : Tree) (p : HostPath) : Forest Name Node := fun s => t.get (p ++ s)

/-- Preparing a stage makes an entry there, of which something is known. -/
def Prepares {α : Type} (e : Engine) (w : World) (prepareStage : HostPath → Io α) (Good : α → Forest Name Node → Prop) : Prop :=
  ∀ id w₁, Kept e (e.recoveryDir <+: ·) w w₁ → Home e w₁ → isDirAt w₁.host.tree e.recoveryDir = true →
    w₁.host.tree.get (e.stagePath id) = none →
    Ends (prepareStage (e.stagePath id)) w₁ (fun a w₂ => ∃ h', w₂ = { w₁ with host := h' } ∧ Edit (e.stagePath id) w₁.host h' ∧
      (h'.tree.get (e.stagePath id)).isSome ∧ Good a (h'.tree.sub (e.stagePath id))) (fun _ _ => False)

/-- An entry is staged under a record's id, and nothing has changed outside of the recovery directory. -/
structure Staged (e : Engine) (id : Nat) (sub : Forest Name Node) (w w₂ : World) : Prop where
  kept : Kept e (e.recoveryDir <+: ·) w w₂
  recovery : isDirAt w₂.host.tree e.recoveryDir = true
  stage : w₂.host.tree.sub (e.stagePath id) = sub
  present : (sub []).isSome
  others : ∀ id', id < id' → w₂.host.tree.get (e.stagePath id') = none
  next : w₂.store.visible.nextId = id + 1

section publication

variable {α : Type} {e : Engine} {w : World} {operation : RecoveryOperation} {prepareStage : HostPath → Io α}
  {Good : α → Forest Name Node → Prop}

/-- `create_directories(recovery_dir)`. -/
theorem prepareRecoveryDirectory_ends {X : Errno → World → Prop} (hh : Home e w) :
    Ends (prepareRecoveryDirectory e) w (fun _ w₁ => ∃ h', w₁ = { w with host := h' } ∧ Edit e.recoveryDir w.host h' ∧
      isDirAt h'.tree e.recoveryDir = true ∧
      ∀ q, q ≠ e.recoveryDir → q ≠ e.workspaceDir → h'.tree.get q = w.host.tree.get q) X := by
  have hpar : e.recoveryDir.dropLast = e.workspaceDir := List.dropLast_concat
  have hwork := workspace_isDir hh
  obtain ⟨h', hrun, hedit, hdir, hsame⟩ := ensureDirectory_edit hh.wf Engine.Placed.recovery_ne hh.placed.recovery_ordinary
    (by rw [hpar]; exact hwork) hh.recovery
  unfold prepareRecoveryDirectory
  refine ends_bind (R := fun _ w₁ => w₁ = { w with host := h' })
    (ends_orFail (X := fun _ _ => False) (ends_host (·.ensureDirectory e.recoveryDir) rfl hrun rfl) (fun _ _ hx => hx.elim)) (fun _ w₁ hw₁ => ?_)
  subst hw₁
  have hwork' : isDirAt h'.tree e.workspaceDir = true := by
    rw [hedit.isDirAt_eq not_recovery_workspace]
    exact hwork
  refine (ends_fsyncDirectory (X := X) hedit.wf (p := parentPath e.recoveryDir) ?_ ?_).mono (fun _ w₂ hw₂ => ?_) (fun _ _ hx => hx)
  · rw [parentPath, hpar]
    exact hh.placed.workspaceDir_ordinary
  · rw [parentPath, hpar]
    exact hwork'
  · exact ⟨h', hw₂, hedit, hdir, fun q hq hqd => hsame q hq (by rw [hpar]; exact hqd)⟩

/-- A record has been written and the recovery directory is there; no stage lies under the record's id or a later one. -/
structure Begun (e : Engine) (id : Nat) (w w₁ : World) : Prop where
  kept : Kept e (e.recoveryDir <+: ·) w w₁
  home : Home e w₁
  recovery : isDirAt w₁.host.tree e.recoveryDir = true
  absent : ∀ id', id ≤ id' → w₁.host.tree.get (e.stagePath id') = none
  next : w₁.store.visible.nextId = id + 1

/-- The record and the recovery directory, and then whatever comes of the stage. -/
theorem beginAndStage_rule {R : α → World → Prop} {X : Errno → World → Prop} (hr : Ready e w)
    (hstage : ∀ w₁, Begun e w.store.visible.nextId w w₁ → Ends (stageOperation e w.store.visible.nextId prepareStage) w₁ R X) :
    Ends (beginAndStage e operation prepareStage) w (fun b w₂ =>
      b.1 = { operation with id := w.store.visible.nextId, phase := .publishing } ∧ R b.2 w₂) X := by
  obtain ⟨hh, hq, hc⟩ := hr
  unfold beginAndStage
  refine ends_bind (R := fun id w₁ => id = w.store.visible.nextId ∧
      w₁ = { w with store := w.store.update (·.beginRecoveryOperation operation) })
    (ends_orFail (X := fun _ _ => False) (ends_call ⟨rfl, rfl⟩) (fun _ _ hx => hx.elim)) (fun id w₁ hw₁ => ?_)
  obtain ⟨rfl, rfl⟩ := hw₁
  have hnext : (w.store.update (·.beginRecoveryOperation operation)).visible.nextId = w.store.visible.nextId + 1 := by
    rw [Store.visible_update]
    rfl
  have hh₁ : Home e { w with store := w.store.update (·.beginRecoveryOperation operation) } :=
    ⟨hh.placed, hh.wf, hh.upper, hh.base, hh.recovery, fun id' hid' => hh.fresh id' (by
      have : w.store.visible.nextId + 1 ≤ id' := hnext ▸ hid'
      omega)⟩
  refine ends_bind (ends_orElseDo (X := fun _ _ => False) (prepareRecoveryDirectory_ends hh₁) (fun _ _ hx => hx.elim))
    (fun _ w₂ hw₂ => ?_)
  obtain ⟨h₂, rfl, hedit, hdir, hsame⟩ := hw₂
  have hkept₁ : Kept e (e.recoveryDir <+: ·) w { w with store := w.store.update (·.beginRecoveryOperation operation) } :=
    Kept.stored hh.wf (fun ho => Store.update_closed ho _) (by rw [hnext]; exact Nat.le_succ _)
  have hkept₂ := hkept₁.trans (Kept.edit hedit (by
    rw [show e.recoveryDir.dropLast = e.workspaceDir from List.dropLast_concat]))
  have habsent : ∀ id', w.store.visible.nextId ≤ id' → h₂.tree.get (e.stagePath id') = none := by
    intro id' hid'
    rw [hsame]
    · exact hh.fresh id' hid'
    · simp [Engine.stagePath]
    · intro he
      have := congrArg List.length he
      simp [Engine.stagePath, Engine.recoveryDir, Engine.workspaceDir] at this
  have hh₂ : Home e { w with host := h₂, store := w.store.update (·.beginRecoveryOperation operation) } := by
    refine ⟨hh.placed, hedit.wf, ?_, ?_, fun n hn => ?_, fun id' hid' => habsent id' (by
      have : w.store.visible.nextId + 1 ≤ id' := hnext ▸ hid'
      omega)⟩
    · rw [hedit.isDirAt_eq (fun hc => hh.placed.not_both (List.prefix_refl _) hc)]
      exact hh.upper
    · rw [hedit.isDirAt_eq (fun hc => hh.placed.base_apart (List.prefix_refl _) (Engine.Placed.own_recovery hc))]
      exact hh.base
    · obtain ⟨m, hm, hmd⟩ := (isDirAt_iff Engine.Placed.recovery_ne).mp hdir
      rw [hn, Option.some.injEq] at hm
      rw [hm]
      exact hmd
  exact ends_bind (hstage _ ⟨hkept₂, hh₂, hdir, habsent, hnext⟩) (fun a w₃ hw₃ => ends_pure ⟨rfl, hw₃⟩)

namespace PublicationAux

theorem stage_own (e : Engine) (id : Nat) : e.workspaceDir <+: (e.stagePath id).dropLast := by
  rw [stage_dropLast]
  exact Engine.Placed.own_recovery (List.prefix_refl _)

theorem not_stage_recovery (e : Engine) (id : Nat) : ¬e.stagePath id <+: e.recoveryDir := by
  intro hp
  have := hp.length_le
  simp [Engine.stagePath] at this

/-- An edit of one stage leaves the others. -/
theorem others_of_edit {id id' : Nat} {h h' : Host} (he : Edit (e.stagePath id) h h') (hlt : id < id')
    (hn : h.tree.get (e.stagePath id') = none) : h'.tree.get (e.stagePath id') = none := by
  have hne : ¬e.stagePath id <+: e.stagePath id' := by
    intro hp
    have := Engine.Placed.stage_apart hp
    omega
  exact (get_none_of_look (he.look (stage_own e id) hne)).mpr hn

end PublicationAux

/-- The record, the recovery directory and the stage. -/
theorem beginAndStage_ends (hr : Ready e w) (hprep : Prepares e w prepareStage Good) :
    Ends (beginAndStage e operation prepareStage) w (fun b w₂ =>
      b.1 = { operation with id := w.store.visible.nextId, phase := .publishing } ∧
        ∃ sub, Good b.2 sub ∧ Staged e w.store.visible.nextId sub w w₂) (fun _ _ => False) := by
  refine beginAndStage_rule (R := fun a w₂ => ∃ sub, Good a sub ∧ Staged e w.store.visible.nextId sub w w₂) hr (fun w₁ hb => ?_)
  generalize w.store.visible.nextId = id at hb ⊢
  unfold stageOperation
  refine ends_orElseDo (X := fun _ _ => False) ?_ (fun _ _ hx => hx.elim)
  refine ends_bind (hprep id _ hb.kept hb.home hb.recovery (hb.absent id le_rfl)) (fun a w₂ hw₂ => ?_)
  obtain ⟨h₂, rfl, hedit, hsome, hgood⟩ := hw₂
  have hq : w₁.env = {} := hb.kept.env.trans hr.quiet
  have hrec : isDirAt h₂.tree e.recoveryDir = true := by
    rw [hedit.isDirAt_eq (not_stage_recovery e id)]
    exact hb.recovery
  obtain ⟨n, hn⟩ := Option.isSome_iff_exists.mp hsome
  refine ends_bind (ends_injected (by exact hq) _) (fun _ w₃ hw₃ => ?_)
  subst hw₃
  refine ends_bind (syncEntryTree_ends hedit.wf hn) (fun _ w₃ hw₃ => ?_)
  subst hw₃
  refine ends_bind (ends_orFail (X := fun _ _ => False) (ends_fsyncDirectory hedit.wf hb.home.placed.recovery_ordinary hrec)
    (fun _ _ hx => hx.elim)) (fun _ w₃ hw₃ => ?_)
  subst hw₃
  refine ends_bind (ends_injected (by exact hq) _) (fun _ w₃ hw₃ => ?_)
  subst hw₃
  generalize hs : w₁.store.update (·.setRecoveryOperationPhase id .publishing) = s
  refine ends_bind (R := fun _ w₄ => w₄ = { w₁ with host := h₂, store := s })
    (ends_orFail (X := fun _ _ => False) (ends_call (by rw [← hs]; rfl)) (fun _ _ hx => hx.elim)) (fun _ w₄ hw₄ => ends_pure ?_)
  subst hw₄
  have hkept := hb.kept.trans ((Kept.edit hedit (stage_own e id)).mono (fun q hq => (Engine.Placed.recovery_stage id).trans hq))
  have hnext : s.visible.nextId = id + 1 := by
    rw [← hs, Store.visible_update]
    exact hb.next
  refine ⟨_, hgood, hkept.trans (Kept.stored (s := s) hedit.wf (fun ho => hs ▸ Store.update_closed ho _)
    (hb.next.trans hnext.symm).le), hrec, rfl, ?_, fun id' hid' => others_of_edit hedit hid' (hb.absent id' hid'.le), hnext⟩
  rw [Tree.sub, List.append_nil]
  exact hsome

/-- A stage that cannot be prepared is discarded, and its record with it. -/
theorem beginAndStage_fails (hr : Ready e w)
    (hprep : ∀ id w₁, Begun e id w w₁ → Ends (prepareStage (e.stagePath id)) w₁ (fun _ _ => False) (fun _ w₂ => w₂ = w₁)) :
    Ends (beginAndStage e operation prepareStage) w (fun _ _ => False)
      (fun _ w₂ => Kept e (e.recoveryDir <+: ·) w w₂ ∧ Ready e w₂) := by
  refine (beginAndStage_rule (R := fun _ _ => False) hr (fun w₁ hb => ?_)).mono (fun _ _ h => h.2) (fun _ _ hx => hx)
  generalize w.store.visible.nextId = id at hb ⊢
  unfold stageOperation
  refine ends_orElseDo (X := fun _ w₂ => w₂ = w₁) (ends_bind (hprep id w₁ hb) (fun _ _ hf => hf.elim)) (fun x w₂ hw₂ => ?_)
  subst hw₂
  have hplaced := hb.home.placed
  obtain ⟨h₃, hrun, hedit, -⟩ := run_removeAll_across hb.home.wf (drops_edit (p := e.stagePath id) (by simp [Engine.stagePath]))
    (by simp [Engine.stagePath]) (hplaced.stage_ordinary id) (by rw [stage_dropLast]; exact hb.recovery)
  have hclosed : w₂.store.openTx = none := hb.kept.closed hr.closed
  generalize hs : w₂.store.update (·.abandonRecoveryOperation id) = s
  have hnext : s.visible.nextId = id + 1 := by
    rw [← hs, Store.visible_update]
    exact hb.next
  unfold discardStage
  refine ends_bind (R := fun _ w₃ => w₃ = { w₂ with host := h₃ }) (ends_ignore (ends_of_run hrun rfl)) (fun _ w₃ hw₃ => ?_)
  subst hw₃
  refine ends_bind (R := fun _ w₄ => w₄ = { w₂ with host := h₃, store := s }) (ends_ignore (ends_call (by rw [← hs]; rfl)))
    (fun _ w₄ hw₄ => ends_fail ?_)
  subst hw₄
  have hrec : isDirAt h₃.tree e.recoveryDir = true := by
    rw [hedit.isDirAt_eq (not_stage_recovery e id)]
    exact hb.recovery
  refine ⟨(hb.kept.trans ((Kept.edit hedit (stage_own e id)).mono (fun q hq => (Engine.Placed.recovery_stage id).trans hq))).trans
    (Kept.stored (s := s) hedit.wf (fun ho => hs ▸ Store.update_closed ho _) (hb.next.trans hnext.symm).le),
    ⟨hplaced, hedit.wf, ?_, ?_, fun n hn => ?_, fun id' hid' => ?_⟩, hb.kept.env.trans hr.quiet, hs ▸ Store.update_closed hclosed _⟩
  · rw [hedit.isDirAt_eq (fun hc => hplaced.not_both (List.prefix_refl _) ((Engine.Placed.recovery_stage id).trans hc))]
    exact hb.home.upper
  · rw [hedit.isDirAt_eq (fun hc => hplaced.base_apart (List.prefix_refl _) (Engine.Placed.own_recovery
      ((Engine.Placed.recovery_stage id).trans hc)))]
    exact hb.home.base
  · obtain ⟨m, hm, hmd⟩ := (isDirAt_iff Engine.Placed.recovery_ne).mp hrec
    rw [hn, Option.some.injEq] at hm
    rw [hm]
    exact hmd
  · have hle : id + 1 ≤ id' := hnext ▸ hid'
    exact others_of_edit hedit hle (hb.absent id' (Nat.le_of_succ_le hle))

end publication

/-! ## The entry lands -/

/-- A staged entry has landed at a path of the upper tree. -/
structure Landed (e : Engine) (r : RelPath) (sub : Forest Name Node) (w w' : World) : Prop where
  kept : Kept e (fun q => e.upperPath r <+: q ∨ e.recoveryDir <+: q) w w'
  there : w'.host.tree.sub (e.upperPath r) = sub
  ready : Ready e w'

theorem Landed.of_dirs {e e' : Engine} {r : RelPath} {sub : Forest Name Node} {w w' : World} (h : Landed e r sub w w')
    (hu : e'.upperDir = e.upperDir) (hb : e'.baseDir = e.baseDir) : Landed e' r sub w w' := by
  have hdir : e'.workspaceDir = e.workspaceDir := congrArg parentPath hu
  have hrec : e'.recoveryDir = e.recoveryDir := congrArg (· ++ [recoveryName]) hdir
  have hpath : e'.upperPath r = e.upperPath r := congrArg (· ++ r) hu
  refine ⟨?_, by rw [hpath]; exact h.there, h.ready.of_dirs hu hb⟩
  rw [hpath, hrec]
  exact h.kept.of_dir hdir

section landing

variable {e : Engine} {w w₂ : World} {id : Nat} {sub : Forest Name Node} {r : RelPath}

namespace PublicationAux

/-- The stage moves to the path it is meant for. -/
theorem stage_moves (hp : e.Placed) (hs : Staged e id sub w w₂) (ho : Ordinary r)
    (hd : isDirAt w.host.tree (e.upperPath r).dropLast = true) {n : Node} (hn : sub [] = some n)
    (ht : n.takes w.host.tree (e.upperPath r)) :
    ∃ h', w₂.host.rename (e.stagePath id) (e.upperPath r) = (.ok (), h') ∧ Moved (e.stagePath id) (e.upperPath r) w₂.host h' := by
  obtain ⟨-, hparent⟩ := own_upper_parent hp r
  have hdst : ∀ s, ¬e.recoveryDir <+: e.upperPath r ++ s := fun s hc => hp.not_both ((List.prefix_append _ _).trans (List.prefix_append _ _)) hc
  have hsrc : w₂.host.tree.get (e.stagePath id) = some n := by
    rw [← hn, ← hs.stage, Tree.sub, List.append_nil]
  refine rename_moves hs.kept.wf hsrc (upperPath_ne hp r) (upper_ordinary hp ho) ?_ (fun q => stage_upper_apart hp id r) ?_ ?_ ?_ ?_
  · rw [hs.kept.isDirAt_eq hparent]
    exact hd
  · rw [stage_dropLast]
    intro hc
    exact hparent (hc ▸ List.prefix_refl _)
  · rw [stage_dropLast]
    exact not_upper_recovery hp r
  · exact fun hc => hparent ((Engine.Placed.recovery_stage id).trans hc)
  · intro m hm
    have hlook := contents_of_look (hs.kept.look (e.upperPath r) (not_recovery_upper hp r))
    rw [hm] at hlook
    obtain ⟨m', hm', hc⟩ := Option.map_eq_some_iff.mp hlook.symm
    obtain ⟨hdir, hempty⟩ := ht m' hm'
    refine ⟨?_, fun c => (hs.kept.get_none (hdst [c])).mpr (hempty c)⟩
    rw [← hdir, Node.isDir, Node.isDir, hc]

/-- A Workspace that the stage has left for the upper tree is ready for the next operation. -/
theorem moved_ready (hr : Ready e w) (hs : Staged e id sub w w₂) {h' : Host}
    (hm : Moved (e.stagePath id) (e.upperPath r) w₂.host h') {n : Node} (hn : sub [] = some n)
    (ht : n.takes w.host.tree (e.upperPath r)) : Landed e r sub w { w₂ with host := h' } := by
  have hp := hr.home.placed
  have hkept : Kept e (fun q => e.upperPath r <+: q ∨ e.recoveryDir <+: q) w { w₂ with host := h' } := by
    refine (hs.kept.mono (fun q hq => Or.inr hq)).trans ⟨hm.wf, fun q hq => ?_, rfl, fun hc => hc, le_rfl, hm.umask, hm.now⟩
    refine hm.look ?_ (own_upper_parent hp r).1 (fun hc => hq (Or.inr ((Engine.Placed.recovery_stage _).trans hc)))
      (fun hc => hq (Or.inl hc))
    rw [stage_dropLast]
    exact Engine.Placed.own_recovery (List.prefix_refl _)
  have hthere : h'.tree.sub (e.upperPath r) = sub := by
    funext s
    rw [← hs.stage]
    exact hm.there s
  refine ⟨hkept, hthere, ⟨hp, hm.wf, ?_, ?_, fun m hm' => ?_, fun id' hid' => ?_⟩, hkept.env.trans hr.quiet, hkept.closed hr.closed⟩
  · by_cases h0 : r = []
    · obtain ⟨m, hm', hdir⟩ := (isDirAt_iff hp.upper_ne).mp hr.home.upper
      have hself : e.upperPath r = e.upperDir := by rw [h0, Engine.upperPath, List.append_nil]
      rw [isDirAt_iff hp.upper_ne]
      refine ⟨n, ?_, ?_⟩
      · rw [← hn, ← hthere, Tree.sub, List.append_nil, hself]
      · rw [← (ht m (by rw [hself]; exact hm')).1]
        exact hdir
    · refine (hkept.isDirAt_eq ?_).trans hr.home.upper
      rintro (hc | hc)
      · have hlen := hc.length_le
        rw [Engine.upperPath, List.length_append] at hlen
        have := List.length_pos_of_ne_nil h0
        omega
      · exact hp.not_both (List.prefix_refl _) hc
  · refine (hkept.isDirAt_eq ?_).trans hr.home.base
    rintro (hc | hc)
    · exact hp.base_apart (List.prefix_refl _) (hp.own_upper ((List.prefix_append _ _).trans hc))
    · exact hp.base_apart (List.prefix_refl _) (Engine.Placed.own_recovery hc)
  · have hrec : isDirAt h'.tree e.recoveryDir = true := by
      rw [isDirAt_of_look (hm.look (show ([] : HostPath) <+: _ from List.nil_prefix) List.nil_prefix ?_ (not_upper_recovery hp r))]
      · exact hs.recovery
      · intro hc
        have hlen := hc.length_le
        simp [Engine.stagePath] at hlen
    obtain ⟨m', hm'', hdir⟩ := (isDirAt_iff Engine.Placed.recovery_ne).mp hrec
    rw [hm', Option.some.injEq] at hm''
    rw [hm'']
    exact hdir
  · have hlt : id < id' := by
      have hle : w₂.store.visible.nextId ≤ id' := hid'
      rw [hs.next] at hle
      exact hle
    refine (get_none_of_look (hm.look (show ([] : HostPath) <+: _ from List.nil_prefix) List.nil_prefix ?_ ?_)).mpr (hs.others id' hlt)
    · intro hc
      have := Engine.Placed.stage_apart hc
      omega
    · exact fun hc => stage_upper_apart hp id' r (List.prefix_refl _) hc

end PublicationAux

/-- The faults injected before publication, and the publishing `rename`. -/
theorem publishStage_ends {operation : RecoveryOperation} (hr : Ready e w) (hs : Staged e operation.id sub w w₂)
    (hdest : operation.destinationRelative = r) (ho : Ordinary r) (hd : isDirAt w.host.tree (e.upperPath r).dropLast = true)
    (ht : ∀ n, sub [] = some n → n.takes w.host.tree (e.upperPath r)) :
    Ends (publishStage e operation) w₂ (fun _ w₃ => Landed e r sub w w₃) (fun _ _ => False) := by
  obtain ⟨n, hn⟩ := Option.isSome_iff_exists.mp hs.present
  obtain ⟨h', hrun, hm⟩ := stage_moves hr.home.placed hs ho hd hn (ht n hn)
  have hq : w₂.env = {} := hs.kept.env.trans hr.quiet
  unfold publishStage
  refine ends_orElseDo (X := fun _ _ => False) ?_ (fun _ _ hx => hx.elim)
  refine ends_bind (ends_injected hq _) (fun _ w' hw' => ?_)
  subst hw'
  refine ends_bind (ends_injected hq _) (fun _ w' hw' => ?_)
  subst hw'
  refine ends_bind (ends_injected hq _) (fun _ w' hw' => ?_)
  subst hw'
  rw [hdest]
  exact ends_host (·.rename (e.stagePath operation.id) (e.upperPath r)) rfl hrun (moved_ready hr hs hm hn (ht n hn))

/-! ## The record is finished -/

namespace PublicationAux

/-- What becomes of the recovery directory, a Workspace stays ready as long as nothing appears there. -/
theorem Ready.edit_recovery (hr : Ready e w) {h' : Host} (he : Edit e.recoveryDir w.host h')
    (hshrink : ∀ q n, h'.tree.get q = some n → ∃ m, w.host.tree.get q = some m ∧ n.isDir = m.isDir) :
    Ready e { w with host := h' } := by
  obtain ⟨⟨hp, -, hupper, hbase, hrecovery, hfresh⟩, hq, hc⟩ := hr
  refine ⟨⟨hp, he.wf, ?_, ?_, fun n hn => ?_, fun id hid => ?_⟩, hq, hc⟩
  · rw [he.isDirAt_eq (fun hcc => hp.not_both (List.prefix_refl _) hcc)]
    exact hupper
  · rw [he.isDirAt_eq (fun hcc => hp.base_apart (List.prefix_refl _) (Engine.Placed.own_recovery hcc))]
    exact hbase
  · obtain ⟨m, hm, hd⟩ := hshrink _ _ hn
    rw [hd]
    exact hrecovery m hm
  · by_contra hsome
    obtain ⟨n, hn⟩ := Option.ne_none_iff_exists'.mp hsome
    obtain ⟨m, hm, -⟩ := hshrink _ _ hn
    rw [hfresh id hid] at hm
    cases hm

end PublicationAux

/-- What lasts while an operation is finished: its record is deleted, and the recovery directory goes. -/
structure Lasting (e : Engine) (R : HostPath → Prop) (Q : Tree → Prop) (w w' : World) : Prop where
  kept : Kept e R w w'
  tree : Q w'.host.tree
  ready : Ready e w'

namespace PublicationAux

section lasting

variable {R : HostPath → Prop} {Q : Tree → Prop}

theorem Lasting.stored (h : Lasting e R Q w w₂) {s : Store} (hc : s.openTx = none)
    (hn : s.visible.nextId = w₂.store.visible.nextId) : Lasting e R Q w { w₂ with store := s } := by
  obtain ⟨hk, ht, ⟨⟨hp, hwf, hu, hb, hrec, hf⟩, hq, -⟩⟩ := h
  exact ⟨hk.trans (Kept.stored hwf (fun _ => hc) hn.ge), ht,
    ⟨⟨hp, hwf, hu, hb, hrec, fun id' hid' => hf id' (hn ▸ hid')⟩, hq, hc⟩⟩

theorem Lasting.edit_recovery (hR : ∀ q, e.recoveryDir <+: q → R q)
    (hQ : ∀ t t' : Tree, (∀ p, t'.get (e.upperPath p) = t.get (e.upperPath p)) → Q t → Q t') (h : Lasting e R Q w w₂) {h' : Host}
    (he : Edit e.recoveryDir w₂.host h')
    (hshrink : ∀ q n, h'.tree.get q = some n → ∃ m, w₂.host.tree.get q = some m ∧ n.isDir = m.isDir) :
    Lasting e R Q w { w₂ with host := h' } := by
  have hp := h.ready.home.placed
  have hpar : e.recoveryDir.dropLast = e.workspaceDir := List.dropLast_concat
  refine ⟨h.kept.trans ((Kept.edit he (by rw [hpar])).mono hR), hQ _ _ (fun p => ?_) h.tree, Ready.edit_recovery h.ready he hshrink⟩
  refine he.off _ (not_recovery_upper hp p) ?_
  rw [hpar]
  intro heq
  have hlen := congrArg List.length heq
  have := List.length_pos_of_ne_nil hp.upper_ne
  rw [Engine.upperPath, List.length_append, Engine.workspaceDir, parentPath, List.length_dropLast] at hlen
  omega

end lasting

end PublicationAux

/-- The steps after the publishing `rename`. The source of an operation `rename` is removed, and what then holds lasts. -/
theorem finishPublication_rule {operation : RecoveryOperation} {R : HostPath → Prop} {Q : Tree → Prop}
    (hR : ∀ q, e.recoveryDir <+: q → R q)
    (hQ : ∀ t t' : Tree, (∀ p, t'.get (e.upperPath p) = t.get (e.upperPath p)) → Q t → Q t') (h : Landed e r sub w w₂)
    (hdest : operation.destinationRelative = r) (ho : Ordinary r) (hd : isDirAt w.host.tree (e.upperPath r).dropLast = true)
    (hsource : Ends (Fallible.onlyIf (operation.kind = .rename) (removeRenamedSource e operation)) w₂
      (fun _ w' => Lasting e R Q w w') (fun _ _ => False)) :
    (finishPublication operation).Ends e w₂ (fun _ e' w' => e' = e.finishTombstones operation ∧ Lasting e R Q w w')
      (fun _ _ _ => False) := by
  have hp := h.ready.home.placed
  have hparent : isDirAt w₂.host.tree (e.upperPath r).dropLast = true := by
    rw [h.kept.isDirAt_eq]
    · exact hd
    · rintro (hc | hc)
      · exact not_prefix_dropLast (upperPath_ne hp r) hc
      · exact (own_upper_parent hp r).2 hc
  unfold finishPublication
  refine EngineM.ends_bind (R := fun _ e' w' => e' = e ∧ w' = w₂) (EngineM.ends_reads (ends_orFail (X := fun _ _ => False) ?_
    (fun _ _ hx => hx.elim))) (fun _ e' w' hw' => ?_)
  · refine (ends_fsyncDirectory h.kept.wf (p := parentPath (e.upperPath operation.destinationRelative)) ?_ ?_).mono
      (fun _ _ hw => ⟨rfl, hw⟩) (fun _ _ hx => hx)
    · rw [hdest]
      exact (upper_ordinary hp ho).of_initial (List.dropLast_prefix _)
    · rw [hdest]
      exact hparent
  obtain ⟨rfl, rfl⟩ := hw'
  refine EngineM.ends_bind (R := fun _ e'' w'' => e'' = e' ∧ Lasting e' R Q w w'') (EngineM.ends_reads
    (hsource.mono (fun _ _ hl => ⟨rfl, hl⟩) (fun _ _ hx => hx))) (fun _ e'' w'' hw'' => ?_)
  obtain ⟨rfl, hlast⟩ := hw''
  refine EngineM.ends_bind (R := fun _ e' w' => e' = e''.finishTombstones operation ∧ Lasting e'' R Q w w') ?_
    (fun _ e' w' hw' => ?_)
  · refine EngineM.ends_bind (R := fun _ e' w' => e' = e'' ∧ Lasting e'' R Q w w') (EngineM.ends_reads
      (ends_orFail (X := fun _ _ => False) (ends_call ?_) (fun _ _ hx => hx.elim))) (fun _ e' w' hw' => ?_)
    · have hnext := (Store.finish_settles w''.store {} operation).1.nextId
      rw [Store.finish_ok hlast.ready.closed] at hnext
      rw [exec, Store.finish_ok hlast.ready.closed]
      exact ⟨rfl, Lasting.stored hlast hlast.ready.closed hnext⟩
    · obtain ⟨rfl, hl⟩ := hw'
      exact EngineM.ends_modify ⟨rfl, hl⟩
  · obtain ⟨rfl, hl⟩ := hw'
    refine EngineM.ends_reads (ends_ignore ?_)
    have hrec : Edit e''.recoveryDir w'.host (w'.host.remove e''.recoveryDir).2 := by
      refine remove_edit hl.kept.wf Engine.Placed.recovery_ne hp.recovery_ordinary ?_
      rw [show e''.recoveryDir.dropLast = e''.workspaceDir from List.dropLast_concat]
      exact workspace_isDir hl.ready.home
    have hafter := Lasting.edit_recovery hR hQ hl hrec (fun q n hn => by
      obtain ⟨m, hm, hs⟩ := remove_shrinks w'.host e''.recoveryDir hn
      exact ⟨m, hm, Node.isDir_of_seen hs⟩)
    refine ends_call ?_
    change Outcome _ _ (w'.host.remove e''.recoveryDir).1 { w' with host := (w'.host.remove e''.recoveryDir).2 }
    cases (w'.host.remove e''.recoveryDir).1 <;> exact ⟨rfl, hafter⟩

/-- The steps after the publishing `rename`, of an operation other than `rename`. -/
theorem finishPublication_ends {operation : RecoveryOperation} (h : Landed e r sub w w₂) (hk : operation.kind ≠ .rename)
    (hdest : operation.destinationRelative = r) (ho : Ordinary r) (hd : isDirAt w.host.tree (e.upperPath r).dropLast = true) :
    (finishPublication operation).Ends e w₂ (fun _ e' w' => e' = e.finishTombstones operation ∧ Landed e r sub w w')
      (fun _ _ _ => False) := by
  refine (finishPublication_rule (R := fun q => e.upperPath r <+: q ∨ e.recoveryDir <+: q)
    (Q := fun t => t.sub (e.upperPath r) = sub) (fun _ hq => Or.inr hq) (fun t t' hsame ht => ?_) h hdest ho hd
    (ends_onlyIf (fun hc => absurd hc hk) (fun _ => ⟨h.kept, h.there, h.ready⟩))).mono
      (fun _ _ _ hl => ⟨hl.1, hl.2.kept, hl.2.tree, hl.2.ready⟩) (fun _ _ _ hx => hx)
  rw [← ht]
  funext s
  have hs := hsame (r ++ s)
  rwa [Engine.upperPath, ← List.append_assoc] at hs

end landing

end TribiosVfs

import TribiosVfs.Lemmas.CopyUp

/-!
# Publishing and removing an entry of the view

`publish_staged_operation` and `remove_visible_entry_atomically`, run alone with no call failing, as changes of the view: an entry
published shows in the place of what was there, and an entry removed shows no more. The Base tree is as it was.
-/

namespace TribiosVfs

open PublicationAux ViewAux

section publishing

variable {α : Type} {e e₁ : Engine} {w w₁ w' : World} {r : RelPath} {sub : Forest Name Node} {Good : α → Forest Name Node → Prop}

theorem finishTombstones_self {operation : RecoveryOperation} (ha : operation.addPathTombstone = false)
    (hd : operation.dropTargetTombstones = false) : e.finishTombstones operation = e := by
  simp [Engine.finishTombstones, ha, hd]

/-- The memory once `publish_staged_operation` has forgotten listings. -/
def Engine.forgetFor (e : Engine) (operation : RecoveryOperation) : Engine :=
  if operation.kind = .rename then (e.forget operation.path).forget operation.target else e.forget operation.path

theorem forgetFor_dirs (operation : RecoveryOperation) :
    (e.forgetFor operation).upperDir = e.upperDir ∧ (e.forgetFor operation).baseDir = e.baseDir := by
  unfold Engine.forgetFor
  split <;> exact ⟨rfl, rfl⟩

/-- `publish_staged_operation`: an entry is staged and lands, and then whatever the last steps come to. -/
theorem publishStagedOperation_rule (operation : RecoveryOperation) {prepareStage : Engine → HostPath → Io α}
    {R : α → Engine → World → Prop} (hr : Ready e w) (hdest : operation.destinationRelative = r) (ho : Ordinary r)
    (hd : isDirAt w.host.tree (e.upperPath r).dropLast = true)
    (hprep : Prepares (e.forgetFor operation) w (prepareStage (e.forgetFor operation)) Good)
    (hfits : ∀ a sub, Good a sub → ∀ n, sub [] = some n → n.takes w.host.tree (e.upperPath r))
    (hfinish : ∀ a sub w₁, Good a sub → Landed (e.forgetFor operation) r sub w w₁ →
      (finishPublication { operation with id := w.store.visible.nextId, phase := .publishing }).Ends (e.forgetFor operation) w₁
        (fun _ => R a) (fun _ _ _ => False)) :
    (publishStagedOperation operation prepareStage).Ends e w R (fun _ _ _ => False) := by
  obtain ⟨hu, hb⟩ := @forgetFor_dirs e operation
  generalize hforget : e.forgetFor operation = e₁ at hu hb hprep hfinish
  have hr' : Ready e₁ w := hr.of_dirs hu hb
  have hpath : e₁.upperPath r = e.upperPath r := congrArg (· ++ r) hu
  unfold publishStagedOperation beginPublication
  refine EngineM.ends_bind (R := fun b e' w' => e' = e₁ ∧
      b.1 = { operation with id := w.store.visible.nextId, phase := .publishing } ∧
      ∃ sub, Good b.2 sub ∧ Staged e₁ w.store.visible.nextId sub w w') ?_ (fun b e' w' hb => ?_)
  · refine EngineM.ends_bind (R := fun _ e' w' => e' = e ∧ w' = w)
      (EngineM.ends_reads ((ends_injected hr.quiet _).mono (fun _ _ h => ⟨rfl, h⟩) (fun _ _ hx => hx))) (fun _ e' w' hw' => ?_)
    obtain ⟨rfl, rfl⟩ := hw'
    refine EngineM.ends_bind (R := fun _ e'' w'' => e'' = e'.forget operation.path ∧ w'' = w') (EngineM.ends_modify ⟨rfl, rfl⟩)
      (fun _ e'' w'' hw'' => ?_)
    obtain ⟨rfl, rfl⟩ := hw''
    refine EngineM.ends_bind (R := fun _ e₂ w₂ => e₂ = e₁ ∧ w₂ = w'')
      (EngineM.ends_onlyIf (fun hc => EngineM.ends_modify ⟨?_, rfl⟩) (fun hc => ⟨?_, rfl⟩)) (fun _ e₂ w₂ h₂ => ?_)
    · rw [← hforget, Engine.forgetFor, if_pos hc]
      rfl
    · rw [← hforget, Engine.forgetFor, if_neg hc]
    obtain ⟨rfl, rfl⟩ := h₂
    exact EngineM.ends_reads ((beginAndStage_ends hr' hprep).mono (fun b w₃ hb => ⟨rfl, hb⟩) (fun _ _ hx => hx))
  obtain ⟨rfl, hop, sub, hgood, hstaged⟩ := hb
  have hid : b.1.id = w.store.visible.nextId := by rw [hop]
  refine EngineM.ends_bind (R := fun _ e'' w'' => e'' = e' ∧ Landed e' r sub w w'') (EngineM.ends_reads ?_)
    (fun _ e'' w'' hw'' => ?_)
  · refine (publishStage_ends hr' (by rw [hid]; exact hstaged) (by rw [hop]; exact hdest) ho (by rw [hpath]; exact hd)
      (fun n hn => ?_)).mono (fun _ _ h => ⟨rfl, h⟩) (fun _ _ hx => hx)
    rw [hpath]
    exact hfits b.2 sub hgood n hn
  obtain ⟨rfl, hland⟩ := hw''
  refine EngineM.ends_bind (R := fun _ => R b.2) ?_ (fun _ _ _ h => EngineM.ends_pure h)
  rw [hop]
  exact hfinish b.2 sub w'' hgood hland

/-- `publish_staged_operation`, of an operation that changes no tombstone. -/
theorem publishStagedOperation_ends (operation : RecoveryOperation) {prepareStage : Engine → HostPath → Io α} (hr : Ready e w)
    (hk : operation.kind ≠ .rename) (hpath : operation.path = r) (hadd : operation.addPathTombstone = false)
    (hdrop : operation.dropTargetTombstones = false) (ho : Ordinary r) (hd : isDirAt w.host.tree (e.upperPath r).dropLast = true)
    (hprep : Prepares (e.forget r) w (prepareStage (e.forget r)) Good)
    (hfits : ∀ a sub, Good a sub → ∀ n, sub [] = some n → n.takes w.host.tree (e.upperPath r)) :
    (publishStagedOperation operation prepareStage).Ends e w
      (fun a e' w' => e' = e.forget r ∧ ∃ sub, Good a sub ∧ Landed e r sub w w') (fun _ _ _ => False) := by
  have hforget : e.forgetFor operation = e.forget r := by rw [Engine.forgetFor, if_neg hk, hpath]
  have hdest : operation.destinationRelative = r := by rw [RecoveryOperation.destinationRelative, if_neg hk, hpath]
  refine publishStagedOperation_rule (r := r) operation hr hdest ho hd (by rw [hforget]; exact hprep) hfits
    (fun a sub w₁ hgood hland => ?_)
  rw [hforget] at hland ⊢
  have hk' : ({ operation with id := w.store.visible.nextId, phase := .publishing } : RecoveryOperation).kind ≠ .rename := hk
  refine (finishPublication_ends hland hk' hdest ho hd).mono (fun _ e' w' hw' => ?_) (fun _ _ _ hx => hx)
  obtain ⟨he, hl⟩ := hw'
  exact ⟨he.trans (finishTombstones_self hadd hdrop), sub, hgood, hl.of_dirs rfl rfl⟩

/-- Directories are copied up, and then an entry is published. -/
theorem publishAt_ends (Good : α → Forest Name Node → Prop) {kind : OperationKind} {prepareStage : Engine → HostPath → Io α}
    (hr : Ready e w) (ha : e.Agrees w.host.tree) (hk : kind ≠ .rename) (ho : Ordinary r) (hc : Unbarred (e.view w.host.tree) r)
    (hprep : ∀ e₁ w₁, Carried e w r e₁ w₁ → Prepares (e₁.forget r) w₁ (prepareStage (e₁.forget r)) Good)
    (hfits : ∀ a sub, Good a sub → ∀ n, sub [] = some n → n.takes w.host.tree (e.upperPath r)) :
    (publishAt kind r prepareStage).Ends e w
      (fun a e' w' => (∃ n, e.view w.host.tree (parentOf r) = some n ∧ n.isDir = true) ∧
        ∃ e₁ w₁, Carried e w r e₁ w₁ ∧ e' = e₁.forget r ∧ ∃ sub, Good a sub ∧ Landed e r sub w₁ w')
      (fun _ e' w' => Carried e w r e' w' ∧ ¬∃ n, e.view w.host.tree (parentOf r) = some n ∧ n.isDir = true) := by
  refine EngineM.ends_bind (createMissingUpperParentDirectories_ends hr ha ho hc) (fun _ e₁ w₁ h₁ => ?_)
  obtain ⟨hcar, hd, hparent⟩ := h₁
  have hmem := hcar.memory
  have hpath : e₁.upperPath r = e.upperPath r := by
    rw [hmem]
    rfl
  have hready : Ready e₁ w₁ := hcar.ready.of_dirs (by rw [hmem]) (by rw [hmem])
  refine EngineM.ends_here (m := fun e => publishStagedOperation (e.operation kind r) prepareStage)
    ((publishStagedOperation_ends (r := r) (e₁.operation kind r) hready hk rfl rfl rfl ho
    (by rw [hpath]; exact hd) (hprep e₁ w₁ hcar) (fun a sub hgood n hn => ?_)).mono (fun a e' w' h => ?_)
      (fun _ _ _ hx => hx.elim))
  · intro m hm
    rw [hpath] at hm ⊢
    -- only directories above the path have been copied up
    have hsame : ∀ s, (w₁.host.tree.get (e.upperPath r ++ s)).map Node.lasting = (w.host.tree.get (e.upperPath r ++ s)).map Node.lasting := by
      intro s
      rcases hcar.upper_or (r ++ s) with h | ⟨h, hne, -⟩
      · rw [Engine.upper, Engine.upper, Engine.upperPath, ← List.append_assoc] at h
        exact h
      · exact absurd (h.eq_of_length (le_antisymm h.length_le (List.prefix_append r s).length_le)) hne
    have h0 := hsame []
    rw [List.append_nil, hm] at h0
    obtain ⟨m', hm', heq⟩ := Option.map_eq_some_iff.mp h0.symm
    obtain ⟨hdir, hempty⟩ := hfits a sub hgood n hn m' hm'
    refine ⟨?_, fun c => ?_⟩
    · rw [← hdir, ← m'.lasting_isDir, heq, Node.lasting_isDir]
    · have hchild := hsame [c]
      rw [hempty c] at hchild
      exact Option.map_eq_none_iff.mp hchild
  · obtain ⟨he, sub, hgood, hland⟩ := h
    exact ⟨hparent, e₁, w₁, hcar, he, sub, hgood, hland.of_dirs (by rw [hmem]) (by rw [hmem])⟩

/-- `publish_staged_operation`, where the stage cannot be prepared. -/
theorem publishStagedOperation_fails (operation : RecoveryOperation) {prepareStage : Engine → HostPath → Io α} (hr : Ready e w)
    (hk : operation.kind ≠ .rename) (hpath : operation.path = r)
    (hprep : ∀ id w₁, Begun (e.forget r) id w w₁ →
      Ends (prepareStage (e.forget r) (e.stagePath id)) w₁ (fun _ _ => False) (fun _ w₂ => w₂ = w₁)) :
    (publishStagedOperation operation prepareStage).Ends e w (fun _ _ _ => False)
      (fun _ e' w' => e' = e.forget r ∧ Kept e (e.recoveryDir <+: ·) w w' ∧ Ready e w') := by
  have hr' : Ready (e.forget r) w := hr.of_dirs rfl rfl
  unfold publishStagedOperation beginPublication
  refine EngineM.ends_bind (R := fun _ _ _ => False) ?_ (fun _ _ _ hf => hf.elim)
  refine EngineM.ends_bind (R := fun _ e' w' => e' = e ∧ w' = w)
    (EngineM.ends_reads ((ends_injected hr.quiet _).mono (fun _ _ h => ⟨rfl, h⟩) (fun _ _ hx => hx))) (fun _ e' w' hw' => ?_)
  obtain ⟨rfl, rfl⟩ := hw'
  refine EngineM.ends_bind (R := fun _ e'' w'' => e'' = e'.forget r ∧ w'' = w') (EngineM.ends_modify ⟨by rw [← hpath]; rfl, rfl⟩)
    (fun _ e'' w'' hw'' => ?_)
  obtain ⟨rfl, rfl⟩ := hw''
  refine EngineM.ends_bind (R := fun _ e₂ w₂ => e₂ = e'.forget r ∧ w₂ = w'')
    (EngineM.ends_onlyIf (fun hc => absurd hc hk) (fun _ => ⟨rfl, rfl⟩)) (fun _ e₂ w₂ h₂ => ?_)
  obtain ⟨rfl, rfl⟩ := h₂
  exact EngineM.ends_reads ((beginAndStage_fails (e := e'.forget r) hr' hprep).mono (fun _ _ hf => hf)
    (fun _ _ h => ⟨rfl, h.1.of_dir rfl, h.2.of_dirs rfl rfl⟩))

/-- Directories are copied up, and then nothing is published, as the stage cannot be prepared. -/
theorem publishAt_fails {kind : OperationKind} {prepareStage : Engine → HostPath → Io α} (hr : Ready e w) (ha : e.Agrees w.host.tree)
    (hk : kind ≠ .rename) (ho : Ordinary r) (hc : Unbarred (e.view w.host.tree) r)
    (hprep : ∀ e₁ id w₁ w₂, Carried e w r e₁ w₁ → Begun (e₁.forget r) id w₁ w₂ →
      Ends (prepareStage (e₁.forget r) (e₁.stagePath id)) w₂ (fun _ _ => False) (fun _ w₃ => w₃ = w₂)) :
    (publishAt kind r prepareStage).Ends e w (fun _ _ _ => False)
      (fun _ e' w' => Carried e w r e' w' ∨ ∃ e₁ w₁, Carried e w r e₁ w₁ ∧ e' = e₁.forget r ∧
        Kept e (e.recoveryDir <+: ·) w₁ w' ∧ Ready e w') := by
  refine EngineM.ends_bind ((createMissingUpperParentDirectories_ends hr ha ho hc).mono (fun _ _ _ h => h) (fun _ _ _ h => Or.inl h.1))
    (fun _ e₁ w₁ h₁ => ?_)
  obtain ⟨hcar, -, -⟩ := h₁
  have hmem := hcar.memory
  have hready : Ready e₁ w₁ := hcar.ready.of_dirs (by rw [hmem]) (by rw [hmem])
  have hrec : e₁.recoveryDir = e.recoveryDir := by
    rw [hmem]
    rfl
  refine EngineM.ends_here (m := fun e => publishStagedOperation (e.operation kind r) prepareStage)
    ((publishStagedOperation_fails (r := r) (e₁.operation kind r) hready hk rfl
      (fun id w₂ hb => hprep e₁ id w₁ w₂ hcar hb)).mono (fun _ _ _ hf => hf) (fun _ e' w' h => ?_))
  obtain ⟨he, hkept, hready'⟩ := h
  rw [hrec] at hkept
  exact Or.inr ⟨e₁, w₁, hcar, he, hkept.of_dir (by rw [hmem]; rfl), hready'.of_dirs (by rw [hmem]) (by rw [hmem])⟩

/-! ## What shows after a publication -/

theorem Landed.upper (h : Landed e r sub w w') :
    e.upper w'.host.tree = (e.upper w.host.tree).graft r (fun s => (sub s).map Node.lasting) := by
  have hp := h.ready.home.placed
  funext p
  by_cases hrp : r <+: p
  · obtain ⟨s, rfl⟩ := hrp
    rw [Forest.graft_at, ← h.there, Engine.upper, Engine.upperPath, ← List.append_assoc]
    rfl
  · rw [Forest.graft_off _ _ hrp]
    refine h.kept.upper hp ?_
    rintro (hc | hc)
    · exact hrp ((List.prefix_append_right_inj _).mp hc)
    · exact not_recovery_upper hp p hc

theorem Landed.own (h : Landed e r sub w w') : Kept e (e.workspaceDir <+: ·) w w' := by
  refine h.kept.mono ?_
  rintro q (hq | hq)
  · exact h.ready.home.placed.own_upper ((List.prefix_append _ _).trans hq)
  · exact Engine.Placed.own_recovery hq

theorem Landed.base (h : Landed e r sub w w') : e.base w'.host.tree = e.base w.host.tree :=
  h.own.base h.ready.home.placed (fun _ hq => hq)

theorem Carried.own (h : Carried e w r e₁ w₁) : Kept e (e.workspaceDir <+: ·) w w₁ := by
  refine h.kept.mono ?_
  rintro q ⟨a, rfl, -⟩
  exact h.ready.home.placed.own_upper (List.prefix_append _ _)

/-- An entry published without anything beneath it shows in the place of what showed there. -/
theorem leaf_view (h : Landed e r sub w w') {n : Node} (hn : sub [] = some n) (hleaf : ∀ s, s ≠ [] → sub s = none)
    (hbeneath : ∀ s, s ≠ [] → e.upper w.host.tree (r ++ s) = none) :
    e.view w'.host.tree = (e.view w.host.tree).put r (some n.lasting) := by
  rw [Engine.view, h.upper, h.base, Forest.graft_leaf (fun s hs => by rw [hleaf s hs]; rfl) hbeneath, hn]
  exact Forest.overlay_put r n.lasting

theorem leaf_agrees (h : Landed e r sub w w') (ha : e.Agrees w.host.tree) {n : Node} (hn : sub [] = some n)
    (hleaf : ∀ s, s ≠ [] → sub s = none) (hbeneath : ∀ s, s ≠ [] → e.upper w.host.tree (r ++ s) = none)
    (hkind : ∀ m, e.view w.host.tree r = some m → n.fileType = m.fileType) : e.Agrees w'.host.tree := by
  rw [Engine.Agrees, h.upper, h.base, Forest.graft_leaf (fun s hs => by rw [hleaf s hs]; rfl) hbeneath, hn]
  exact Forest.Agree.put ha (fun m hm => (fileType_lasting n).trans (hkind m hm))

end publishing

/-! ## Removals -/

section removal

variable {e : Engine} {w : World} {r : RelPath}

/-- Whether a tombstone must hide the Base entry of a path. -/
def Engine.covers (e : Engine) (t : Tree) (r : RelPath) : Bool := !e.Hides r && (t.get (e.basePath r)).isSome

/-- No tombstone of a path is written twice. -/
theorem covers_fresh {t : Tree} (hne : r ≠ []) (h : e.covers t r = true) : r ∉ e.tombstones := by
  intro hmem
  rw [Engine.covers, Bool.and_eq_true, Bool.not_eq_true', decide_eq_false_iff_not, not_hides, baseIsVisible,
    List.all_eq_true] at h
  have := h.1 r ((List.mem_inits _ _).mpr (List.prefix_refl r))
  simp [hne, hmem] at this

/-- The engine's memory after a removal. -/
def Engine.bury (e : Engine) (t : Tree) (r : RelPath) : Engine :=
  { e.forget r with tombstones := if e.covers t r then e.tombstones ++ [r] else e.tombstones }

theorem hides_bury {t : Tree} {p : RelPath} (hne : r ≠ []) : (e.bury t r).Hides p ↔ e.Hides p ∨ (e.covers t r = true ∧ r <+: p) := by
  unfold Engine.Hides Engine.bury baseIsVisible
  dsimp only
  by_cases hc : e.covers t r = true
  · simp only [hc, if_true, true_and]
    rw [List.all_eq_false, List.all_eq_false]
    constructor
    · rintro ⟨a, ha, hbad⟩
      by_cases har : a = r
      · exact Or.inr (har ▸ (List.mem_inits _ _).mp ha)
      · refine Or.inl ⟨a, ha, fun h => hbad ?_⟩
        simp only [decide_eq_true_eq, List.mem_append, List.mem_singleton, not_or] at h ⊢
        exact h.imp_right (fun h => ⟨h, har⟩)
    · rintro (⟨a, ha, hbad⟩ | hrp)
      · refine ⟨a, ha, fun h => hbad ?_⟩
        simp only [decide_eq_true_eq, List.mem_append, List.mem_singleton, not_or] at h ⊢
        exact h.imp_right (fun h => h.1)
      · exact ⟨r, (List.mem_inits _ _).mpr hrp, by simp [hne]⟩
  · rw [Bool.not_eq_true] at hc
    simp [hc]

/-- What the moves of a removal leave. -/
structure Removed (e : Engine) (w : World) (r : RelPath) (w' : World) : Prop where
  kept : Kept e (e.upperPath r <+: ·) w w'
  gone : w'.host.tree.get (e.upperPath r) = none
  ready : Ready e w'

namespace PublishingAux

/-- Whatever becomes of an entry of the upper tree, a Workspace stays ready. -/
theorem Ready.edit_upper (hr : Ready e w) (hne : r ≠ []) {h' : Host} (he : Edit (e.upperPath r) w.host h') :
    Ready e { w with host := h' } := by
  have hp := hr.home.placed
  have hk : Kept e (e.upperPath r <+: ·) w { w with host := h' } := Kept.edit he (own_upper_parent hp r).1
  refine ⟨⟨hp, he.wf, ?_, ?_, fun n hn => ?_, fun id hid => ?_⟩, hr.quiet, hr.closed⟩
  · refine (hk.isDirAt_eq (fun h => hne ?_)).trans hr.home.upper
    have hlen := h.length_le
    rw [Engine.upperPath, List.length_append] at hlen
    exact List.eq_nil_of_length_eq_zero (by omega)
  · exact (hk.isDirAt_eq (fun h => hp.base_apart (List.prefix_refl _)
      (hp.own_upper ((List.prefix_append _ _).trans h)))).trans hr.home.base
  · have hcon := contents_of_look (hk.look e.recoveryDir (not_upper_recovery hp r))
    change h'.tree.get e.recoveryDir = some n at hn
    rw [hn] at hcon
    obtain ⟨m, hm, heq⟩ := Option.map_eq_some_iff.mp hcon.symm
    rw [Node.isDir, ← heq]
    exact hr.home.recovery m hm
  · exact (hk.get_none (fun h => stage_upper_apart hp id r (List.prefix_refl _) h)).mpr (hr.home.fresh id hid)

/-- The removal of an entry of the upper tree, or of nothing. -/
theorem removeUpper_ends {operation : RecoveryOperation} (hr : Ready e w) (hpath : operation.path = r) (ho : Ordinary r)
    (hne : r ≠ []) (hc : Clear w.host.tree (e.upperPath r)) {directory : Bool}
    (hleaf : directory = false → ∀ n, w.host.tree.get (e.upperPath r) = some n → n.isDir = false) :
    Ends (removeUpper e operation directory) w (fun _ w' => Removed e w r w') (fun _ _ => False) := by
  have hp := hr.home.placed
  have hpne := upperPath_ne hp r
  have hpo := upper_ordinary hp ho
  unfold removeUpper
  rw [hpath]
  refine ends_bind (ends_lstatPath hr.home.wf hc) (fun found w' hfound => ?_)
  obtain ⟨rfl, rfl⟩ := hfound
  refine ends_onlyIf (fun hsome => ?_) (fun hnone => ?_)
  · obtain ⟨n, hn⟩ := Option.isSome_iff_exists.mp hsome
    have hd := hr.home.wf.isDirAt_parent hsome
    have hcut : ∃ h', (removeEntry (e.upperPath r) directory).run exec w' = (.ok (), { w' with host := h' }) ∧
        Edit (e.upperPath r) w'.host h' ∧ h'.tree.get (e.upperPath r) = none := by
      unfold removeEntry
      cases directory with
      | true => exact run_removeAll_across hr.home.wf (drops_edit hpne) hpne hpo hd
      | false =>
        have hempty : ∀ c, w'.host.tree.get (e.upperPath r ++ [c]) = none := by
          intro c
          refine hr.home.wf.get_none_of_parent ?_
          rw [List.dropLast_concat, isDirAt_eq_false hpne]
          intro m hm
          rw [hn, Option.some.injEq] at hm
          exact hm ▸ hleaf rfl n hn
        refine ⟨w'.host.dropEntry (e.upperPath r), ?_, edit_dropEntry hr.home.wf hpne hd hempty, ?_⟩
        · change ((w'.host.remove (e.upperPath r)).1, { w' with host := (w'.host.remove (e.upperPath r)).2 }) = _
          rw [remove_leaf hr.home.wf hn hempty]
        · rw [dropEntry_get _ hpne, if_pos rfl]
    obtain ⟨h', hrun, hedit, hgone⟩ := hcut
    refine ends_bind (R := fun _ w'' => w'' = { w' with host := h' }) (ends_orElseDo (X := fun _ _ => False)
      (ends_of_run hrun rfl) (fun _ _ hx => hx.elim)) (fun _ w'' hw'' => ?_)
    subst hw''
    refine ends_orFail (X := fun _ _ => False) ((ends_fsyncDirectory hedit.wf (hpo.of_initial (List.dropLast_prefix _)) ?_).mono
      (fun _ w'' hw'' => ?_) (fun _ _ hx => hx)) (fun _ _ hx => hx.elim)
    · exact (hedit.isDirAt_eq (not_prefix_dropLast hpne)).trans hd
    · subst hw''
      exact ⟨Kept.edit hedit (own_upper_parent hp r).1, hgone, Ready.edit_upper hr hne hedit⟩
  · rw [Bool.not_eq_true, Option.isSome_eq_false_iff, Option.isNone_iff_eq_none] at hnone
    exact ⟨Kept.refl hr.home.wf, hnone, hr⟩

theorem Removed.stored {w₁ w' : World} (hk : Kept e (e.upperPath r <+: ·) w w₁) (h : Removed e w₁ r w') {s : Store}
    (hc : s.openTx = none) (hn : s.visible.nextId = w'.store.visible.nextId) : Removed e w r { w' with store := s } := by
  obtain ⟨hkept, hgone, ⟨⟨hp, hwf, hu, hb, hrec, hf⟩, hq, -⟩⟩ := h
  exact ⟨(hk.trans hkept).trans (Kept.stored hwf (fun _ => hc) hn.ge), hgone,
    ⟨⟨hp, hwf, hu, hb, hrec, fun id' hid' => hf id' (hn ▸ hid')⟩, hq, hc⟩⟩

/-- `base_is_visible`, and an entry there. -/
theorem baseEntryVisible_ends (hr : Ready e w) (ha : e.Agrees w.host.tree) (ho : Ordinary r)
    (hc : Unbarred (e.view w.host.tree) r) {X : Errno → World → Prop} :
    Ends (baseEntryVisible e r) w (fun b w' => b = e.covers w.host.tree r ∧ w' = w) X := by
  unfold baseEntryVisible Engine.covers
  by_cases hv : e.Hides r
  · rw [if_neg (fun hb => not_hides.mpr hb hv)]
    exact ends_pure ⟨by simp [hv], rfl⟩
  · rw [if_pos (not_hides.mp hv)]
    refine ends_bind (ends_lstatPath hr.home.wf (clear_base (hr.home.layered ha) ho hc hv)) (fun found w' hfound => ?_)
    obtain ⟨rfl, rfl⟩ := hfound
    exact ends_pure ⟨by simp [hv], rfl⟩

/-- The row of a removal, in the publishing phase. -/
theorem journalRemoval_ends (hr : Ready e w) (operation : RecoveryOperation) :
    Ends (journalRemoval operation) w (fun begun w₁ => begun = { operation with id := w.store.visible.nextId, phase := .publishing } ∧
      Kept e (e.upperPath r <+: ·) w w₁ ∧ w₁.host = w.host ∧ Ready e w₁) (fun _ _ => False) := by
  obtain ⟨⟨hp, hwf, hu, hb, hrec, hf⟩, hq, hc⟩ := hr
  unfold journalRemoval
  refine ends_bind (R := fun id w₁ => id = w.store.visible.nextId ∧
      w₁ = { w with store := w.store.update (·.beginRecoveryOperation operation) })
    (ends_orFail (X := fun _ _ => False) (ends_call ⟨rfl, rfl⟩) (fun _ _ hx => hx.elim)) (fun id w₁ hw₁ => ?_)
  obtain ⟨rfl, rfl⟩ := hw₁
  generalize hs : (w.store.update (·.beginRecoveryOperation operation)).update
    (·.setRecoveryOperationPhase w.store.visible.nextId .publishing) = s
  refine ends_bind (R := fun _ w₁ => w₁ = { w with store := s }) (ends_orElseDo (X := fun _ _ => False)
    (ends_call (by rw [← hs]; rfl)) (fun _ _ hx => hx.elim)) (fun _ w₁ hw₁ => ends_pure ⟨rfl, ?_⟩)
  subst hw₁
  have hclosed : s.openTx = none := hs ▸ Store.update_closed (Store.update_closed hc _) _
  have hnext : s.visible.nextId = w.store.visible.nextId + 1 := by
    rw [← hs, Store.visible_update]
    change (w.store.update (·.beginRecoveryOperation operation)).visible.nextId = _
    rw [Store.visible_update]
    rfl
  exact ⟨Kept.stored hwf (fun _ => hclosed) (by omega), rfl, ⟨hp, hwf, hu, hb, hrec, fun id' hid' => hf id' (by
    change s.visible.nextId ≤ id' at hid'
    omega)⟩, hq, hclosed⟩

end PublishingAux

open PublishingAux

/-- `remove_visible_entry_atomically`: the entry is gone from the upper tree, and a tombstone hides that of the Base tree. -/
theorem removeVisibleEntryAtomically_ends {kind : OperationKind} {directory : Bool} (hr : Ready e w) (ha : e.Agrees w.host.tree)
    (ho : Ordinary r) (hne : r ≠ []) (hc : Unbarred (e.view w.host.tree) r)
    (hleaf : directory = false → ∀ n, w.host.tree.get (e.upperPath r) = some n → n.isDir = false) :
    (removeVisibleEntryAtomically kind r directory).Ends e w (fun _ e' w' => e' = e.bury w.host.tree r ∧ Removed e w r w')
      (fun _ _ _ => False) := by
  refine EngineM.ends_here (m := fun e => removeOperation (e.operation kind r) directory) ?_
  unfold removeOperation beginRemoval
  refine EngineM.ends_bind (R := fun begun e₁ w₁ => e₁ = e.forget r ∧
      begun = { e.operation kind r with id := w.store.visible.nextId, phase := .publishing, addPathTombstone := e.covers w.host.tree r } ∧
      Kept e (e.upperPath r <+: ·) w w₁ ∧ w₁.host = w.host ∧ Ready e w₁) ?_ (fun begun e₁ w₁ h₁ => ?_)
  · refine EngineM.ends_bind (R := fun b e' w' => b = e.covers w.host.tree r ∧ e' = e ∧ w' = w) (EngineM.ends_reads
      ((baseEntryVisible_ends hr ha ho hc (X := fun _ _ => False)).mono (fun _ _ h => ⟨h.1, rfl, h.2⟩) (fun _ _ hx => hx)))
      (fun b e' w' hb => ?_)
    obtain ⟨rfl, rfl, rfl⟩ := hb
    refine EngineM.ends_bind (R := fun _ e'' w'' => e'' = e'.forget r ∧ w'' = w') (EngineM.ends_modify ⟨rfl, rfl⟩)
      (fun _ e'' w'' h => ?_)
    obtain ⟨rfl, rfl⟩ := h
    exact EngineM.ends_reads ((journalRemoval_ends hr _).mono (fun _ _ h => ⟨rfl, h⟩) (fun _ _ hx => hx))
  obtain ⟨rfl, hbegun, hkept, hhost, hready⟩ := h₁
  have hclear : Clear w₁.host.tree (e.upperPath r) := hhost ▸ clear_upper (hr.home.layered ha) ho hc
  refine EngineM.ends_bind (R := fun _ e' w' => e' = e.forget r ∧ Removed e w₁ r w') (EngineM.ends_reads ?_) (fun _ e' w' h => ?_)
  · refine (removeUpper_ends (e := e) hready (by rw [hbegun]; rfl) ho hne hclear (by rw [hhost]; exact hleaf)).mono
      (fun _ _ h => ⟨rfl, h⟩) (fun _ _ hx => hx)
  obtain ⟨rfl, hremoved⟩ := h
  unfold finishOperation
  refine EngineM.ends_bind (R := fun _ e' w'' => e' = e.forget r ∧ Removed e w r w'') (EngineM.ends_reads
    (ends_orFail (X := fun _ _ => False) (ends_call ?_) (fun _ _ hx => hx.elim))) (fun _ e' w'' h => ?_)
  · have hnext := (Store.finish_settles w'.store {} begun).1.nextId
    rw [Store.finish_ok hremoved.ready.closed] at hnext
    rw [exec, Store.finish_ok hremoved.ready.closed]
    exact ⟨rfl, Removed.stored hkept hremoved hremoved.ready.closed hnext⟩
  obtain ⟨rfl, hfinal⟩ := h
  refine EngineM.ends_modify ⟨?_, hfinal⟩
  rw [hbegun, Engine.finishTombstones, Engine.bury]
  cases hcov : e.covers w.host.tree r with
  | false => simp [Engine.operation, Engine.forget]
  | true => simp [Engine.operation, Engine.forget, covers_fresh hne hcov]

/-! ## What shows after a removal -/

section shows

variable {w' : World}

theorem Removed.own (h : Removed e w r w') : Kept e (e.workspaceDir <+: ·) w w' :=
  h.kept.mono (fun _ hq => h.ready.home.placed.own_upper ((List.prefix_append _ _).trans hq))

theorem Removed.base (h : Removed e w r w') : e.base w'.host.tree = e.base w.host.tree :=
  h.own.base h.ready.home.placed (fun _ hq => hq)

theorem Removed.upper (h : Removed e w r w') (hbeneath : ∀ s, s ≠ [] → e.upper w.host.tree (r ++ s) = none) :
    e.upper w'.host.tree = (e.upper w.host.tree).put r none := by
  have hp := h.ready.home.placed
  funext p
  by_cases hrp : r <+: p
  · obtain ⟨s, rfl⟩ := hrp
    have hnone : e.upper w'.host.tree (r ++ s) = none := by
      rw [Engine.upper, Engine.upperPath, ← List.append_assoc]
      refine Option.map_eq_none_iff.mpr ?_
      by_cases hs : s = []
      · rw [hs, List.append_nil]
        exact h.gone
      · exact h.kept.wf.rooted.get_under_none (upperPath_ne hp r) h.gone (List.prefix_append _ _)
    rw [hnone]
    by_cases hs : s = []
    · rw [hs, List.append_nil, Forest.put_self]
    · rw [Forest.put_of_ne _ (by simpa using hs), hbeneath s hs]
  · rw [Forest.put_of_ne]
    · exact h.kept.upper hp (fun hc => hrp ((List.prefix_append_right_inj _).mp hc))
    · rintro rfl
      exact hrp (List.prefix_refl _)

/-- An entry with nothing beneath it that has been removed shows no more, and nothing else has changed. -/
theorem removed_view (h : Removed e w r w') (hne : r ≠ [])
    (hbeneath : ∀ s, s ≠ [] → e.view w.host.tree (r ++ s) = none) :
    (e.bury w.host.tree r).view w'.host.tree = (e.view w.host.tree).put r none := by
  have hupper : ∀ s, s ≠ [] → e.upper w.host.tree (r ++ s) = none := fun s hs => (Forest.overlay_eq_none.mp (hbeneath s hs)).1
  have hlayers : (e.bury w.host.tree r).view w'.host.tree =
      Forest.overlay ((e.upper w.host.tree).put r none) (e.base w.host.tree) (e.bury w.host.tree r).Hides := by
    rw [← h.upper hupper, ← h.base]
    rfl
  rw [hlayers]
  refine Forest.overlay_cut ?_ ?_ (fun q hq => (hides_bury hne).mpr (Or.inl hq)) (fun q hq => ?_)
  · by_cases hc : e.covers w.host.tree r = true
    · exact Or.inl ((hides_bury hne).mpr (Or.inr ⟨hc, List.prefix_refl _⟩))
    · by_cases hv : e.Hides r
      · exact Or.inl ((hides_bury hne).mpr (Or.inl hv))
      · simp only [Engine.covers, hv, decide_false, Bool.not_false, Bool.true_and, Option.isSome_iff_ne_none, not_not] at hc
        exact Or.inr (by rw [Engine.base, hc]; rfl)
  · rintro q ⟨s, rfl⟩ hq
    exact hbeneath s (by simpa using hq)
  · exact ((hides_bury hne).mp hq).imp_right (fun h => h.2)

theorem removed_agrees (h : Removed e w r w') (ha : e.Agrees w.host.tree) (hne : r ≠ [])
    (hbeneath : ∀ s, s ≠ [] → e.view w.host.tree (r ++ s) = none) :
    (e.bury w.host.tree r).Agrees w'.host.tree := by
  have hupper : ∀ s, s ≠ [] → e.upper w.host.tree (r ++ s) = none := fun s hs => (Forest.overlay_eq_none.mp (hbeneath s hs)).1
  change Forest.Agree (e.upper w'.host.tree) (e.base w'.host.tree) (e.bury w.host.tree r).Hides Node.fileType
  rw [h.upper hupper, h.base]
  exact Forest.Agree.cut ha r (fun q hq => (hides_bury hne).mpr (Or.inl hq))

end shows

end removal

end TribiosVfs

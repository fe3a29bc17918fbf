import TribiosVfs.Lemmas.TreeOperations

/-!
# Moving an entry

`rename`, run alone with no call failing: a copy of what shows at and beneath the source is published at the target, the source is
removed from the upper tree, and a tombstone hides what the Base tree has there. Where the Base tree yields to what moves, the tree
that shows is the one in which everything at and beneath the source has moved.
-/

namespace TribiosVfs

open PublicationAux ViewAux PublishingAux MaterializeAux Runs

/-- The engine's memory after a rename. -/
def Engine.relocate (e : Engine) (t : Tree) (source target : RelPath) : Engine :=
  { (e.forget source).forget target with
    tombstones := (if e.covers t source then e.tombstones ++ [source] else e.tombstones).filter
      (fun path => !isAtOrUnder target path) }

/-- The Base tree yields to what moves from a source to a target: it is hidden in a directory above the target, or it has nothing
beneath the target, and nothing of another kind at the target. Elsewhere dropping the target's tombstones lets it show again. -/
def Engine.Yields (e : Engine) (t : Tree) (source target : RelPath) : Prop :=
  e.Hides (parentOf target) ∨ ((∀ s, s ≠ [] → e.base t (target ++ s) = none) ∧
    ∀ n m, e.base t target = some n → e.view t source = some m → n.fileType = m.fileType)

namespace MovingAux

/-! ## The steps -/

section steps

variable {e : Engine} {w w₂ w' : World} {source target : RelPath} {sub : Forest Name Node}

/-- Nothing lies beneath both of two paths of which neither lies beneath the other. -/
theorem apart (h1 : ¬source <+: target) (h2 : ¬target <+: source) {q : RelPath} (hs : source <+: q) : ¬target <+: q :=
  fun ht => (List.prefix_or_prefix_of_prefix hs ht).elim h1 h2

/-- `remove_all` of a path that nothing but directories stand above. -/
theorem removeAll_ends {X : Errno → World → Prop} (hw : w.host.tree.WF) {p : HostPath} (hc : Clear w.host.tree p)
    (hdirs : DirsUnder w.host.tree [] p) :
    Ends (removeAll p) w (fun _ w' => ∃ h', w' = { w with host := h' } ∧ Edit p w.host h' ∧ h'.tree.get p = none) X := by
  rcases hc.resolve_absent hw hdirs with ⟨hd, -⟩ | ⟨hn, hx⟩
  · obtain ⟨h', hrun, hedit, hgone⟩ := run_removeAll_across hw (drops_edit hc.ne_nil) hc.ne_nil hc.ordinary hd
    exact ends_of_run hrun ⟨h', rfl, hedit, hgone⟩
  · have hlist : (Io.call (.listTree p)).run exec w = (.ok [], w) := by
      rw [run_call w _ rfl]
      change ((w.host.listTree p).1, w) = _
      rw [Host.listTree, hx]
    refine ends_of_run (show _ = (.ok (), w) from ?_) ⟨w.host, rfl, Edit.refl hw p, hn⟩
    rw [removeAll, run_bind, hlist]
    rfl

/-- What becomes of the upper tree: the entry has landed at the target, and the source is gone. -/
def Vacated (e : Engine) (source target : RelPath) (sub : Forest Name Node) : World → World → Prop :=
  Lasting e (fun q => e.upperPath target <+: q ∨ e.upperPath source <+: q ∨ e.recoveryDir <+: q)
    (fun t => t.sub (e.upperPath target) = sub ∧ t.get (e.upperPath source) = none)

theorem vacated_of_edit (hland : Landed e target sub w w₂) (hne : source ≠ []) (h1 : ¬source <+: target) (h2 : ¬target <+: source)
    {h' : Host} (he : Edit (e.upperPath source) w₂.host h') (hgone : h'.tree.get (e.upperPath source) = none) :
    Vacated e source target sub w { w₂ with host := h' } := by
  have hp := hland.ready.home.placed
  refine ⟨?_, ⟨?_, hgone⟩, Ready.edit_upper hland.ready hne he⟩
  · exact (hland.kept.mono (fun q hq => hq.imp_right Or.inr)).trans
      ((Kept.edit he (own_upper_parent hp source).1).mono (fun q hq => Or.inr (Or.inl hq)))
  · funext s
    rw [← hland.there]
    refine he.off _ (fun hc => ?_) (fun hc => ?_)
    · rw [Engine.upperPath, Engine.upperPath, List.append_assoc, List.prefix_append_right_inj] at hc
      exact apart h1 h2 hc (List.prefix_append target s)
    · have hpre := List.prefix_append (e.upperPath target) s
      rw [hc] at hpre
      exact h2 ((List.prefix_append_right_inj _).mp (hpre.trans (List.dropLast_prefix _)))

/-- The source of a rename is removed from the upper tree. -/
theorem removeRenamedSource_ends {operation : RecoveryOperation} (hland : Landed e target sub w w₂) (hpath : operation.path = source)
    (ho : Ordinary source) (hne : source ≠ []) (h1 : ¬source <+: target) (h2 : ¬target <+: source)
    (hc : Clear w₂.host.tree (e.upperPath source)) (hdirs : DirsUnder w₂.host.tree [] (e.upperPath source)) :
    Ends (removeRenamedSource e operation) w₂ (fun _ w' => Vacated e source target sub w w') (fun _ _ => False) := by
  have hp := hland.ready.home.placed
  unfold removeRenamedSource
  rw [hpath]
  refine ends_bind (ends_lstatPath hland.kept.wf hc) (fun found w' hfound => ?_)
  obtain ⟨rfl, rfl⟩ := hfound
  refine ends_bind (ends_orFail (X := fun _ _ => False) (removeAll_ends hland.kept.wf hc hdirs) (fun _ _ hx => hx.elim)) (fun _ w₃ hw₃ => ?_)
  obtain ⟨h', rfl, hedit, hgone⟩ := hw₃
  have hv := vacated_of_edit hland hne h1 h2 hedit hgone
  refine ends_onlyIf (fun hsome => ?_) (fun _ => hv)
  refine ends_orFail (X := fun _ _ => False) ((ends_fsyncDirectory hedit.wf ((upper_ordinary hp ho).of_initial
    (List.dropLast_prefix _)) ?_).mono (fun _ w'' hw'' => ?_) (fun _ _ hx => hx)) (fun _ _ hx => hx.elim)
  · exact (hedit.isDirAt_eq (not_prefix_dropLast (upperPath_ne hp source))).trans (hland.kept.wf.isDirAt_parent hsome)
  · subst hw''
    exact hv

/-- What stands above the source stays as it was while an entry lands at the target. -/
theorem above_landed (hland : Landed e target sub w w₂) (h2 : ¬target <+: source) {a : HostPath} (hap : a <+: e.upperPath source)
    {n : Node} (hn : w₂.host.tree.get a = some n) : ∃ m, w.host.tree.get a = some m ∧ m.contents = n.contents := by
  have hp := hland.ready.home.placed
  have hcon := contents_of_look (hland.kept.look a (fun hq => ?_))
  · rw [hn] at hcon
    exact Option.map_eq_some_iff.mp hcon.symm
  · rcases hq with hq | hq
    · exact h2 ((List.prefix_append_right_inj _).mp (hq.trans hap))
    · exact not_recovery_upper hp source (hq.trans hap)

theorem clear_landed (hland : Landed e target sub w w₂) (h2 : ¬target <+: source) (hc : Clear w.host.tree (e.upperPath source)) :
    Clear w₂.host.tree (e.upperPath source) := by
  refine ⟨hc.ordinary, hc.ne_nil, fun a ha hap hane n hn => ?_⟩
  obtain ⟨m, hm, heq⟩ := above_landed hland h2 hap hn
  have hlink := hc.plain a ha hap hane m hm
  rw [Node.isLnk] at hlink ⊢
  rw [← heq]
  exact hlink

theorem dirs_landed (hland : Landed e target sub w w₂) (h2 : ¬target <+: source)
    (hdirs : DirsUnder w.host.tree [] (e.upperPath source)) : DirsUnder w₂.host.tree [] (e.upperPath source) := by
  intro a ha hap hane n hn
  obtain ⟨m, hm, heq⟩ := above_landed hland h2 hap hn
  exact Node.isDir_of_contents (heq.symm.trans (Node.contents_of_isDir (hdirs a ha hap hane m hm)))

/-- The memory after the record of a rename is finished. -/
theorem finishTombstones_rename (hne : source ≠ []) (t : Tree) (id : Nat) (phase : RecoveryPhase) :
    ((e.forget source).forget target).finishTombstones
      { e.renameOperation source target (e.covers t source) with id := id, phase := phase } = e.relocate t source target := by
  unfold Engine.finishTombstones Engine.relocate Engine.renameOperation
  cases hcov : e.covers t source with
  | false => simp [Engine.forget]
  | true => simp [Engine.forget, covers_fresh hne hcov]

/-- `publish_staged_operation` of a rename. -/
theorem publishRename_ends (Good : Unit → Forest Name Node → Prop) {prepareStage : Engine → HostPath → Io Unit} (hr : Ready e w)
    (hos : Ordinary source) (hot : Ordinary target) (hne : source ≠ []) (h1 : ¬source <+: target) (h2 : ¬target <+: source)
    (hd : isDirAt w.host.tree (e.upperPath target).dropLast = true) (hc : Clear w.host.tree (e.upperPath source))
    (hdirs : DirsUnder w.host.tree [] (e.upperPath source))
    (hprep : ∀ e₁ : Engine, e₁ = (e.forget source).forget target → Prepares e₁ w (prepareStage e₁) Good)
    (hfits : ∀ a sub, Good a sub → ∀ n, sub [] = some n → n.takes w.host.tree (e.upperPath target)) :
    (publishStagedOperation (e.renameOperation source target (e.covers w.host.tree source)) prepareStage).Ends e w
      (fun a e' w' => e' = e.relocate w.host.tree source target ∧ ∃ sub, Good a sub ∧ Vacated e source target sub w w')
      (fun _ _ _ => False) := by
  have hforget : e.forgetFor (e.renameOperation source target (e.covers w.host.tree source)) = (e.forget source).forget target := by
    unfold Engine.forgetFor
    exact if_pos rfl
  refine publishStagedOperation_rule (r := target) _ hr (if_pos rfl) hot hd (by rw [hforget]; exact hprep _ rfl) hfits
    (fun a sub w₁ hgood hland => ?_)
  rw [hforget] at hland ⊢
  have hpath : ({ e.renameOperation source target (e.covers w.host.tree source) with
    id := w.store.visible.nextId, phase := .publishing } : RecoveryOperation).path = source := rfl
  have hdest : ({ e.renameOperation source target (e.covers w.host.tree source) with
    id := w.store.visible.nextId, phase := .publishing } : RecoveryOperation).destinationRelative = target := if_pos rfl
  have hsource := removeRenamedSource_ends hland hpath hos hne h1 h2 (clear_landed hland h2 hc)
    (dirs_landed hland h2 hdirs)
  have hd' : isDirAt w.host.tree (((e.forget source).forget target).upperPath target).dropLast = true := hd
  generalize hm : (e.forget source).forget target = m at hland hsource hd' ⊢
  refine (finishPublication_rule (R := fun q => m.upperPath target <+: q ∨ m.upperPath source <+: q ∨ m.recoveryDir <+: q)
    (Q := fun t => t.sub (m.upperPath target) = sub ∧ t.get (m.upperPath source) = none) (fun q hq => Or.inr (Or.inr hq))
    (fun t t' hsame ht => ⟨?_, (hsame source).trans ht.2⟩) hland hdest hot hd'
    (ends_onlyIf (fun _ => hsource) (fun hk => absurd rfl hk))).mono (fun _ e' w' hl => ?_) (fun _ _ _ hx => hx)
  · rw [← ht.1]
    funext s
    have hs := hsame (target ++ s)
    rwa [Engine.upperPath, ← List.append_assoc] at hs
  · subst hm
    exact ⟨hl.1.trans (finishTombstones_rename hne _ _ _), sub, hgood, hl.2.kept.of_dir rfl, hl.2.tree, hl.2.ready.of_dirs rfl rfl⟩

end steps

/-! ## What shows after a rename -/

section shows

variable {e : Engine} {w w' : World} {source target : RelPath} {sub : Forest Name Node}

theorem hides_iff {p : RelPath} : e.Hides p ↔ ∃ a, a <+: p ∧ a ≠ [] ∧ a ∈ e.tombstones := by
  unfold Engine.Hides baseIsVisible
  rw [List.all_eq_false]
  constructor
  · rintro ⟨a, ha, hbad⟩
    simp only [decide_eq_true_eq, not_or, not_not] at hbad
    exact ⟨a, (List.mem_inits _ _).mp ha, hbad⟩
  · rintro ⟨a, hap, hne, hmem⟩
    exact ⟨a, (List.mem_inits _ _).mpr hap, by simp [hne, hmem]⟩

theorem mem_relocate {t : Tree} {a : RelPath} : a ∈ (e.relocate t source target).tombstones ↔
    (a ∈ e.tombstones ∨ (e.covers t source = true ∧ a = source)) ∧ isAtOrUnder target a = false := by
  unfold Engine.relocate
  cases hcov : e.covers t source <;> simp [or_and_right]

/-- A rename hides what the Base tree has at and beneath the source, and nothing else that is not at or beneath the target. -/
theorem hides_relocate {t : Tree} (ht : target.Canonical) (hne : target ≠ []) (hsne : source ≠ []) {p : RelPath} (hp : Ordinary p)
    (hout : ¬target <+: p) :
    (e.relocate t source target).Hides p ↔ e.Hides p ∨ (e.covers t source = true ∧ source <+: p) := by
  have hkept : ∀ a, a <+: p → isAtOrUnder target a = false := by
    intro a ha
    rw [← Bool.not_eq_true, isAtOrUnder_iff ht hne (hp.of_initial ha).1]
    exact fun hc => hout (hc.trans ha)
  rw [hides_iff, hides_iff]
  constructor
  · rintro ⟨a, hap, hane, hmem⟩
    rcases (mem_relocate.mp hmem).1 with h | ⟨hc, rfl⟩
    · exact Or.inl ⟨a, hap, hane, h⟩
    · exact Or.inr ⟨hc, hap⟩
  · rintro (⟨a, hap, hane, hmem⟩ | ⟨hc, hap⟩)
    · exact ⟨a, hap, hane, mem_relocate.mpr ⟨Or.inl hmem, hkept a hap⟩⟩
    · exact ⟨source, hap, hsne, mem_relocate.mpr ⟨Or.inr ⟨hc, rfl⟩, hkept source hap⟩⟩

/-- What is hidden in a directory above the target stays hidden. -/
theorem hides_beneath (hot : Ordinary target) (hne : target ≠ []) (h : e.Hides (parentOf target)) (t : Tree) (s : RelPath) :
    (e.relocate t source target).Hides (target ++ s) := by
  obtain ⟨a, hap, hane, hmem⟩ := hides_iff.mp h
  have hpar : a <+: target := hap.trans (List.dropLast_prefix target)
  refine hides_iff.mpr ⟨a, hpar.trans (List.prefix_append _ _), hane, mem_relocate.mpr ⟨Or.inl hmem, ?_⟩⟩
  rw [← Bool.not_eq_true, isAtOrUnder_iff hot.1 hne (hot.of_initial hpar).1]
  exact fun hc => not_prefix_dropLast hne (hc.trans hap)

theorem Vacated.own (h : Vacated e source target sub w w') : Kept e (e.workspaceDir <+: ·) w w' := by
  have hp := h.ready.home.placed
  refine h.kept.mono ?_
  rintro q (hq | hq | hq)
  · exact hp.own_upper ((List.prefix_append _ _).trans hq)
  · exact hp.own_upper ((List.prefix_append _ _).trans hq)
  · exact Engine.Placed.own_recovery hq

theorem Vacated.upper (h : Vacated e source target sub w w') : e.upper w'.host.tree =
    ((e.upper w.host.tree).graft source (fun _ => none)).graft target (fun s => (sub s).map Node.lasting) := by
  have hp := h.ready.home.placed
  funext p
  by_cases ht : target <+: p
  · obtain ⟨s, rfl⟩ := ht
    rw [Forest.graft_at, ← h.tree.1, Engine.upper, Engine.upperPath, ← List.append_assoc]
    rfl
  · rw [Forest.graft_off _ _ ht]
    by_cases hs : source <+: p
    · obtain ⟨s, rfl⟩ := hs
      rw [Forest.graft_at, Engine.upper, Engine.upperPath, ← List.append_assoc]
      exact Option.map_eq_none_iff.mpr (h.kept.wf.rooted.get_under_none (upperPath_ne hp source) h.tree.2 (List.prefix_append _ _))
    · rw [Forest.graft_off _ _ hs]
      refine h.kept.upper hp ?_
      rintro (hc | hc | hc)
      · exact ht ((List.prefix_append_right_inj _).mp hc)
      · exact hs ((List.prefix_append_right_inj _).mp hc)
      · exact not_recovery_upper hp p hc

/-- What the Base tree has is at a path of the host. -/
theorem ordinary_of_base (hl : Layered e w.host.tree) {p : RelPath} (h : e.base w.host.tree p ≠ none) : Ordinary p := by
  refine Ordinary.suffix (p := e.baseDir) (hl.wf.ordinary _ ?_)
  rw [Engine.base] at h
  rw [← Engine.basePath]
  exact Option.isSome_iff_ne_none.mpr (fun hn => h (by rw [hn]; rfl))

/-- What the Base tree has at and beneath the source is hidden. -/
theorem hidden_source (hl : Layered e w.host.tree) (hot : Ordinary target) (hne : target ≠ []) (hsne : source ≠ [])
    (h1 : ¬source <+: target) (h2 : ¬target <+: source) {p : RelPath} (hs : source <+: p) (hb : e.base w.host.tree p ≠ none) :
    (e.relocate w.host.tree source target).Hides p := by
  rw [hides_relocate hot.1 hne hsne (ordinary_of_base hl hb) (apart h1 h2 hs)]
  by_cases hh : e.Hides source
  · exact Or.inl (hides_above hs hh)
  · refine Or.inr ⟨?_, hs⟩
    rw [Engine.covers, decide_eq_false hh, Bool.not_false, Bool.true_and, Option.isSome_iff_ne_none]
    intro hnone
    obtain ⟨s, rfl⟩ := hs
    refine hb (Option.map_eq_none_iff.mpr ?_)
    rw [Engine.basePath, ← List.append_assoc]
    exact hl.wf.rooted.get_under_none (by simp [Engine.basePath, hsne]) hnone (List.prefix_append _ _)

/-- What shows after a rename is what showed, with the entry that landed at the target and nothing at the source. -/
theorem relocated_view (hl : Layered e w.host.tree) (h : Vacated e source target sub w w') (hot : Ordinary target) (hne : target ≠ [])
    (hsne : source ≠ []) (h1 : ¬source <+: target) (h2 : ¬target <+: source) (hyields : e.Yields w.host.tree source target)
    (hsome : (sub []).isSome = true) : (e.relocate w.host.tree source target).view w'.host.tree =
      ((e.view w.host.tree).graft source (fun _ => none)).graft target (fun s => (sub s).map Node.lasting) := by
  have hbase : e.base w'.host.tree = e.base w.host.tree := h.own.base hl.placed (fun _ hq => hq)
  funext p
  have hlayers : (e.relocate w.host.tree source target).view w'.host.tree p =
      (e.upper w'.host.tree p).or (if (e.relocate w.host.tree source target).Hides p then none else e.base w.host.tree p) := by
    rw [← hbase]
    rfl
  rw [hlayers, h.upper]
  by_cases ht : target <+: p
  · obtain ⟨s, rfl⟩ := ht
    rw [Forest.graft_at, Forest.graft_at]
    rcases hyields with hh | ⟨hbeneath, -⟩
    · rw [if_pos (hides_beneath hot hne hh _ s), Option.or_none]
    · by_cases h0 : s = []
      · obtain ⟨n, hn⟩ := Option.isSome_iff_exists.mp hsome
        rw [h0, hn, Option.map_some, Option.some_or]
      · rw [hbeneath s h0]
        simp
  · rw [Forest.graft_off _ _ ht, Forest.graft_off _ _ ht]
    by_cases hs : source <+: p
    · have hnone : (if (e.relocate w.host.tree source target).Hides p then none else e.base w.host.tree p) = none := by
        by_cases hb : e.base w.host.tree p = none
        · simp [hb]
        · rw [if_pos (hidden_source hl hot hne hsne h1 h2 hs hb)]
      rw [hnone]
      obtain ⟨s, rfl⟩ := hs
      rw [Forest.graft_at, Forest.graft_at, Option.none_or]
    · rw [Forest.graft_off _ _ hs, Forest.graft_off _ _ hs, Engine.view, Forest.overlay]
      by_cases hb : e.base w.host.tree p = none
      · simp [hb]
      · have hiff := @hides_relocate e source target w.host.tree hot.1 hne hsne p (ordinary_of_base hl hb) ht
        simp only [hiff, hs, and_false, or_false]

/-- The layers go on agreeing. -/
theorem relocated_agrees (hl : Layered e w.host.tree) (h : Vacated e source target sub w w') (hot : Ordinary target)
    (hne : target ≠ []) (hsne : source ≠ []) (hyields : e.Yields w.host.tree source target)
    (hsub : (sub []).map Node.contents = e.shape w.host.tree source) :
    (e.relocate w.host.tree source target).Agrees w'.host.tree := by
  have hbase : e.base w'.host.tree = e.base w.host.tree := h.own.base hl.placed (fun _ hq => hq)
  intro p n m hn hv hm
  change e.upper w'.host.tree p = some n at hn
  change e.base w'.host.tree p = some m at hm
  rw [hbase] at hm
  rw [h.upper] at hn
  by_cases ht : target <+: p
  · obtain ⟨s, rfl⟩ := ht
    rcases hyields with hh | ⟨hbeneath, hkind⟩
    · exact absurd (hides_beneath hot hne hh _ s) hv
    · by_cases h0 : s = []
      · rw [h0, List.append_nil] at hm
        rw [Forest.graft_at, h0] at hn
        obtain ⟨k, hk, rfl⟩ := Option.map_eq_some_iff.mp hn
        rw [hk, Option.map_some] at hsub
        obtain ⟨m', hm', hcon⟩ := Option.map_eq_some_iff.mp hsub.symm
        rw [hkind m m' hm hm', fileType_lasting, Node.fileType, Node.fileType, hcon]
      · rw [hbeneath s h0] at hm
        cases hm
  · rw [Forest.graft_off _ _ ht] at hn
    by_cases hs : source <+: p
    · obtain ⟨s, rfl⟩ := hs
      rw [Forest.graft_at] at hn
      cases hn
    · rw [Forest.graft_off _ _ hs] at hn
      refine hl.agrees p n m hn (fun hh => hv ?_) hm
      exact (hides_relocate hot.1 hne hsne (ordinary_of_base hl (by rw [hm]; simp)) ht).mpr (Or.inl hh)

/-- Everything at and beneath the source has moved. -/
theorem goes_moved (hs : Serves e w) (h : Vacated e source target sub w w') (hos : Ordinary source) (hot : Ordinary target)
    (hne : target ≠ []) (hsne : source ≠ []) (h1 : ¬source <+: target) (h2 : ¬target <+: source)
    (hyields : e.Yields w.host.tree source target) (hsome : (sub []).isSome = true)
    (hsub : ∀ s, (sub s).map Node.contents = e.shape w.host.tree (source ++ s)) :
    Goes e w ((e.shape w.host.tree).move source target) (e.relocate w.host.tree source target) w' := by
  have hl := hs.ready.home.layered hs.agrees
  have hview := relocated_view hl h hot hne hsne h1 h2 hyields hsome
  have hself := hsub []
  rw [List.append_nil] at hself
  refine ⟨⟨h.ready.of_dirs rfl rfl, relocated_agrees hl h hot hne hsne hyields hself, ?_, hs.handles⟩, ?_, h.own, rfl, rfl, rfl⟩
  · have hforgets : Forgets (fun q => source <+: q ∨ target <+: q) e ((e.forget source).forget target) :=
      (forget_forgets e hos.1 hsne).trans (forget_forgets (e.forget source) hot.1 hne)
    refine hs.current.step rfl hforgets (fun q hq => ?_)
    by_contra hc
    rw [not_or] at hc
    refine hq ?_
    rw [hview, Forest.graft_off _ _ hc.2, Forest.graft_off _ _ hc.1]
  · funext p
    rw [Engine.shape, hview, Forest.move]
    by_cases ht : target <+: p
    · obtain ⟨s, rfl⟩ := ht
      rw [Forest.graft_at, Forest.graft_at, ← hsub s, Option.map_map]
      simp [Function.comp_def]
    · rw [Forest.graft_off _ _ ht, Forest.graft_off _ _ ht]
      by_cases hsp : source <+: p
      · obtain ⟨s, rfl⟩ := hsp
        rw [Forest.graft_at, Forest.graft_at, Option.map_none]
      · rw [Forest.graft_off _ _ hsp, Forest.graft_off _ _ hsp]
        rfl

end shows

/-! ## The operation -/

open CopyOnWriteAux

section operation

variable {e : Engine} {w : World} {source target : RelPath}

/-- A copy of what shows at and beneath a path is staged. -/
theorem prepares_copy (ha : e.Agrees w.host.tree) (ho : Ordinary source) (hc : Unbarred (e.view w.host.tree) source)
    (hn : (e.shape w.host.tree source).isSome = true) (ht : (e.shape w.host.tree).SoundLinks source) :
    Prepares e w (materialize e source)
      (fun _ sub => ∀ s, (sub s).map Node.contents = e.shape w.host.tree (source ++ s)) := by
  intro id w₁ hk hh hrec hnone
  obtain ⟨hl, hview⟩ := hk.layered hh ha
  have hva := vacant_stage hh hrec hnone
  have hsight : ∀ p, (e.sight w₁.host.tree p).map Node.contents = e.shape w.host.tree p := by
    intro p
    rw [Engine.shape, ← hview, view_sight, Option.map_map]
    simp [Function.comp_def]
  have hsome : (e.sight w₁.host.tree source).isSome = true := by
    rw [← Option.isSome_map (f := Node.contents), hsight]
    exact hn
  have htargets : SoundTargets (e.sight w₁.host.tree) source := fun s n target hs hcon =>
    ht s target (by rw [← hsight, hs, Option.map_some, hcon])
  refine (materialize_ends hl ho (by rw [hview]; exact hc) hsome htargets hva).mono (fun _ w₂ hw₂ => ?_) (fun _ _ hx => hx)
  obtain ⟨h₂, rfl, hedit, hcopies⟩ := hw₂
  have hcontents : ∀ s, (h₂.tree.sub (e.stagePath id) s).map Node.contents = e.shape w.host.tree (source ++ s) := by
    intro s
    rw [← hsight]
    have hrel : Option.Rel (w₁.host.Mirrors (groupBit w₁.host.tree (e.stagePath id).dropLast)) (e.sight w₁.host.tree (source ++ s)) (h₂.tree.sub (e.stagePath id) s) := hcopies s
    generalize e.sight w₁.host.tree (source ++ s) = shown at hrel
    generalize h₂.tree.sub (e.stagePath id) s = copied at hrel
    cases hrel with
    | some hmir => rw [Option.map_some, Option.map_some, hmir.contents]
    | none => rfl
  refine ⟨h₂, rfl, hedit, ?_, hcontents⟩
  have hself := hcontents []
  rw [Tree.sub, List.append_nil, List.append_nil] at hself
  rw [← Option.isSome_map (f := Node.contents), hself]
  exact hn

/-- What stands above something that shows is a directory, in the upper tree too. -/
theorem dirs_upper (hs : Serves e w) {r : RelPath} (hsome : (e.shape w.host.tree r).isSome = true) :
    DirsUnder w.host.tree [] (e.upperPath r) := by
  intro a ha hap hane n hn
  rw [List.nil_append] at hn
  rcases initial_append_cases hap hane with hdir | ⟨a', rfl, ⟨s, hs'⟩, hne⟩
  · obtain ⟨m, hm, hmd⟩ := (isDirAt_iff ha).mp ((layered hs).wf.isDirAt_initial (layered hs).upper hdir)
    rw [hn, Option.some.injEq] at hm
    exact hm ▸ hmd
  · refine Node.isDir_of_contents ?_
    have hshape := shape_upper (e := e) (r := a') hn
    by_contra hc
    have hnone := shape_beneath hs (r := a') (by rw [hshape]; exact fun h => hc (Option.some.inj h)) (s := s)
      (fun h0 => hne (by rw [← hs', h0, List.append_nil]))
    rw [hs'] at hnone
    simp [hnone] at hsome

/-- `publish_staged_operation` of a rename moves what shows. -/
theorem publishRename_goes (hs : Serves e w) (hos : Ordinary source) (hot : Ordinary target) (hcs : (e.shape w.host.tree).Clear source)
    (hsne : source ≠ []) (hne : target ≠ []) (h1 : ¬source <+: target) (h2 : ¬target <+: source) {c : Contents}
    (hc : e.shape w.host.tree source = some c) (hfits : (e.shape w.host.tree).Fits c target)
    (hd : isDirAt w.host.tree (e.upperPath target).dropLast = true) (hyields : e.Yields w.host.tree source target)
    (ht : (e.shape w.host.tree).SoundLinks source) :
    (publishStagedOperation (e.renameOperation source target (e.covers w.host.tree source))
      (fun e stage => materialize e source stage)).Ends e w
      (fun _ e' w' => Goes e w ((e.shape w.host.tree).move source target) e' w') (fun _ _ _ => False) := by
  have hbar := unbarred_of_clear (e := e) hcs
  have hsome : (e.shape w.host.tree source).isSome = true := by rw [hc]; rfl
  refine (publishRename_ends (fun _ sub => ∀ s, (sub s).map Node.contents = e.shape w.host.tree (source ++ s)) hs.ready hos hot hsne
    h1 h2 hd (clear_upper (layered hs) hos hbar) (dirs_upper hs hsome) (fun e₁ he₁ => ?_) (fun _ sub hgood n hn m hm => ?_)).mono (fun _ e' w' h => ?_)
      (fun _ _ _ hf => hf)
  · subst he₁
    exact @prepares_copy ((e.forget source).forget target) w source hs.agrees hos hbar hsome ht
  · have hshape := shape_upper (e := e) hm
    obtain ⟨hdir, hempty⟩ := hfits _ hshape
    have hnc := hgood []
    rw [hn, List.append_nil, hc, Option.map_some, Option.some.injEq] at hnc
    refine ⟨?_, fun x => ?_⟩
    · rw [Bool.eq_iff_iff]
      constructor
      · exact fun h => Node.isDir_of_contents (hnc.trans (hdir.mpr (Node.contents_of_isDir h)))
      · exact fun h => Node.isDir_of_contents (hdir.mp (hnc.symm.trans (Node.contents_of_isDir h)))
    · by_contra hsome'
      obtain ⟨k, hk⟩ := Option.ne_none_iff_exists'.mp hsome'
      rw [Engine.upperPath, List.append_assoc] at hk
      have hchild := shape_upper (e := e) (r := target ++ [x]) hk
      have hnone : e.shape w.host.tree (target ++ [x]) = none := by
        by_cases hmd : m.contents = .dir
        · exact hempty hmd x
        · exact shape_beneath hs (by rw [hshape]; exact fun h => hmd (Option.some.inj h)) (by simp)
      rw [hchild] at hnone
      cases hnone
  · obtain ⟨rfl, sub, hgood, hv⟩ := h
    have hself := hgood []
    rw [List.append_nil] at hself
    have hcopied : (sub []).isSome = true := by
      rw [← Option.isSome_map (f := Node.contents), hself]
      exact hsome
    exact goes_moved hs hv hos hot hne hsne h1 h2 hyields hcopied hgood

/-- The checks a rename makes of an existing destination. -/
theorem checkRenameDestination_ends (hs : Serves e w) (ho : Ordinary target) (hc : (e.shape w.host.tree).Clear target) (st : Node) :
    (checkRenameDestination st target).Ends e w
      (fun _ e' w' => (e.shape w.host.tree).Fits st.contents target ∧ e' = e ∧ w' = w)
      (fun _ e' w' => ¬(e.shape w.host.tree).Fits st.contents target ∧ e' = e ∧ w' = w) := by
  unfold checkRenameDestination
  refine EngineM.ends_bind (find_ends hs ho hc) (fun found e₁ w₁ h₁ => ?_)
  obtain ⟨-, hfound, rfl, rfl⟩ := h₁
  cases found with
  | none =>
    refine EngineM.ends_pure ⟨fun c' hc' => ?_, rfl, rfl⟩
    rw [← hfound] at hc'
    cases hc'
  | some found =>
    dsimp only
    rw [Option.map_some] at hfound
    have hdir : ∀ n : Node, n.isDir = true ↔ n.contents = .dir := fun n => ⟨Node.contents_of_isDir, Node.isDir_of_contents⟩
    have hfits : (e₁.shape w₁.host.tree).Fits st.contents target ↔ (st.isDir = true ↔ found.2.isDir = true) ∧
        (found.2.isDir = true → ∀ n, e₁.shape w₁.host.tree (target ++ [n]) = none) := by
      unfold PlainTree.Fits
      rw [← hfound, hdir, hdir]
      simp
    refine EngineM.ends_bind (R := fun _ e' w' => ¬(st.isDir = true ∧ found.2.isDir = false) ∧ e' = e₁ ∧ w' = w₁)
      (EngineM.ends_refuse (fun h => ⟨h, rfl, rfl⟩) (fun h => ⟨fun hf => ?_, rfl, rfl⟩)) (fun _ e₂ w₂ h₂ => ?_)
    · have hd := (hfits.mp hf).1.mp h.1
      rw [h.2] at hd
      cases hd
    obtain ⟨hdown, rfl, rfl⟩ := h₂
    refine EngineM.ends_bind (R := fun _ e' w' => ¬(st.isDir = false ∧ found.2.isDir = true) ∧ e' = e₂ ∧ w' = w₂)
      (EngineM.ends_refuse (fun h => ⟨h, rfl, rfl⟩) (fun h => ⟨fun hf => ?_, rfl, rfl⟩)) (fun _ e₃ w₃ h₃ => ?_)
    · have hd := (hfits.mp hf).1.mpr h.2
      rw [h.1] at hd
      cases hd
    obtain ⟨hup, rfl, rfl⟩ := h₃
    have hsame : st.isDir = true ↔ found.2.isDir = true := by
      cases hst : st.isDir <;> cases hfd : found.2.isDir <;> simp_all
    refine EngineM.ends_onlyIf (fun hd => ?_) (fun hd => ⟨hfits.mpr ⟨hsame, fun h => absurd h hd⟩, rfl, rfl⟩)
    refine EngineM.ends_bind (R := fun children e' w' => children = merged e₃ w₃.host target ∧ e' = e₃ ∧ w' = w₃)
      (EngineM.ends_reads (ends_of_run (run_mergeVisible w₃ _ e₃) ⟨rfl, rfl, rfl⟩)) (fun children e₄ w₄ h₄ => ?_)
    obtain ⟨rfl, rfl, rfl⟩ := h₄
    have hnil := merged_nil_iff hs ho hc (by rw [← hfound, Node.contents_of_isDir hd])
    exact EngineM.ends_refuse (fun h => ⟨hfits.mpr ⟨hsame, fun _ => hnil.mp (not_not.mp h)⟩, rfl, rfl⟩)
      (fun h => ⟨fun hf => h (hnil.mpr ((hfits.mp hf).2 hd)), rfl, rfl⟩)

/-- What a target gives way to does not lie beneath it. -/
theorem not_above (hs : Serves e w) {c : Contents} (hc : e.shape w.host.tree source = some c)
    (hfits : (e.shape w.host.tree).Fits c target) (hne : source ≠ target) : ¬target <+: source := by
  rintro ⟨s, rfl⟩
  have hsne : s ≠ [] := fun h => hne (by rw [h, List.append_nil])
  obtain ⟨n, s', rfl⟩ := List.exists_cons_of_ne_nil hsne
  by_cases hd : e.shape w.host.tree target = some .dir
  · have hnone := (hfits _ hd).2 rfl n
    by_cases hs' : s' = []
    · rw [hs', hnone] at hc
      cases hc
    · have hbeneath := shape_beneath hs (r := target ++ [n]) (by rw [hnone]; simp) hs'
      rw [List.append_assoc, List.singleton_append, hc] at hbeneath
      cases hbeneath
  · rw [shape_beneath hs hd hsne] at hc
    cases hc

/-- `rename` of one path to another. -/
theorem renameEntry_goes (hs : Serves e w) (hos : Ordinary source) (hot : Ordinary target) (hcs : (e.shape w.host.tree).Clear source)
    (hct : (e.shape w.host.tree).Clear target) (hsne : source ≠ []) (hne : target ≠ []) (h1 : ¬source <+: target)
    (hyields : e.Yields w.host.tree source target) (ht : (e.shape w.host.tree).SoundLinks source) :
    (renameEntry source target).Ends e w
      (fun _ e' w' => ((∃ c, e.shape w.host.tree source = some c ∧ (e.shape w.host.tree).Fits c target) ∧
        e.shape w.host.tree (parentOf target) = some .dir) ∧ Goes e w ((e.shape w.host.tree).move source target) e' w')
      (fun _ e' w' => ¬((∃ c, e.shape w.host.tree source = some c ∧ (e.shape w.host.tree).Fits c target) ∧
        e.shape w.host.tree (parentOf target) = some .dir) ∧ Goes e w (e.shape w.host.tree) e' w') := by
  unfold renameEntry
  refine EngineM.ends_bind (find_ends hs hos hcs) (fun found e₁ w₁ h₁ => ?_)
  obtain ⟨-, hfound, rfl, rfl⟩ := h₁
  cases found with
  | none =>
    refine EngineM.ends_fail ⟨?_, Goes.refl hs⟩
    rintro ⟨⟨c, hc, -⟩, -⟩
    rw [hc] at hfound
    cases hfound
  | some found =>
    dsimp only
    rw [Option.map_some] at hfound
    refine EngineM.ends_bind ((checkRenameDestination_ends hs hot hct found.2).mono (fun _ _ _ h => h) (fun _ e' w' h => ?_))
      (fun _ e₂ w₂ h₂ => ?_)
    · obtain ⟨hno, rfl, rfl⟩ := h
      refine ⟨?_, Goes.refl hs⟩
      rintro ⟨⟨c, hc, hf⟩, -⟩
      rw [← hfound, Option.some.injEq] at hc
      exact hno (hc ▸ hf)
    obtain ⟨hfits, rfl, rfl⟩ := h₂
    have h2 := not_above hs hfound.symm hfits (fun h => h1 (h ▸ List.prefix_refl _))
    refine EngineM.ends_bind ((createMissingUpperParentDirectories_ends hs.ready hs.agrees hot (unbarred_of_clear hct)).mono
      (fun _ _ _ h => h) (fun _ _ _ h => ⟨fun hm => h.2 (shape_dir.mpr hm.2), goes_carried hs h.1⟩)) (fun _ e₃ w₃ h₃ => ?_)
    obtain ⟨hcar, hd, hparent⟩ := h₃
    have hgoes := goes_carried hs hcar
    have hm := hcar.memory
    have hd' : isDirAt w₃.host.tree (e₃.upperPath target).dropLast = true := by
      rw [hm]
      exact hd
    have hyields' : e₃.Yields w₃.host.tree source target := by
      rw [hm]
      refine hyields.imp id (fun h => ⟨fun s hs' => (congrFun hcar.base_eq _).trans (h.1 s hs'), fun n m hn hv => ?_⟩)
      change e₂.view w₃.host.tree source = some m at hv
      have hcon := hcar.view_contents source
      rw [hv] at hcon
      obtain ⟨k, hk, heq⟩ := Option.map_eq_some_iff.mp hcon.symm
      rw [h.2 n k ((congrFun hcar.base_eq _).symm.trans hn) hk, Node.fileType, Node.fileType, heq]
    rw [← hgoes.shape] at hcs hfits ht hfound
    refine EngineM.ends_bind (R := fun b e' w' => b = e₃.covers w₃.host.tree source ∧ e' = e₃ ∧ w' = w₃) (EngineM.ends_reads
      ((baseEntryVisible_ends hgoes.serves.ready hgoes.serves.agrees hos (unbarred_of_clear hcs) (X := fun _ _ => False)).mono
        (fun _ _ h => ⟨h.1, rfl, h.2⟩) (fun _ _ hx => hx.elim))) (fun b e₄ w₄ h₄ => ?_)
    obtain ⟨rfl, rfl, rfl⟩ := h₄
    refine EngineM.ends_here (m := fun e => publishStagedOperation (e.renameOperation source target _)
      (fun e stage => materialize e source stage)) ((publishRename_goes hgoes.serves hos hot hcs hsne hne h1 h2 hfound.symm hfits hd'
        hyields' ht).mono (fun _ e' w' h => ?_) (fun _ _ _ hf => hf.elim))
    have hmoved := hgoes.trans h
    rw [hgoes.shape] at hfound hfits hmoved
    exact ⟨⟨⟨_, hfound.symm, hfits⟩, shape_dir.mp hparent⟩, hmoved⟩

/-- `rename`. -/
theorem rename_goes {fromPath toPath : Bytes} (hs : Serves e w) (hos : Ordinary (normalizeRelative fromPath))
    (hot : Ordinary (normalizeRelative toPath)) (hcs : (e.shape w.host.tree).Clear (normalizeRelative fromPath))
    (hct : (e.shape w.host.tree).Clear (normalizeRelative toPath)) (hyields : e.Yields w.host.tree (normalizeRelative fromPath) (normalizeRelative toPath))
    (ht : (e.shape w.host.tree).SoundLinks (normalizeRelative fromPath)) :
    (rename fromPath toPath).Ends e w
      (fun _ e' w' => (e.shape w.host.tree).Renames (normalizeRelative fromPath) (normalizeRelative toPath) ∧
        Goes e w ((e.shape w.host.tree).move (normalizeRelative fromPath) (normalizeRelative toPath)) e' w')
      (fun _ e' w' => ¬(e.shape w.host.tree).Renames (normalizeRelative fromPath) (normalizeRelative toPath) ∧
        Goes e w (e.shape w.host.tree) e' w') := by
  unfold rename
  refine EngineM.ends_bind (R := fun _ e' w' => ¬(normalizeRelative fromPath = [] ∨ normalizeRelative toPath = []) ∧ e' = e ∧ w' = w)
    (EngineM.ends_refuse (fun h => ⟨h, rfl, rfl⟩) (fun h => ⟨fun hm => ?_, Goes.refl hs⟩)) (fun _ e₁ w₁ h₁ => ?_)
  · exact h.elim hm.1 hm.2.1
  obtain ⟨hroot, rfl, rfl⟩ := h₁
  obtain ⟨hsne, hne⟩ := not_or.mp hroot
  by_cases heq : normalizeRelative fromPath = normalizeRelative toPath
  · rw [if_pos heq]
    refine EngineM.ends_pure ⟨⟨hsne, hne, Or.inl heq⟩, ?_⟩
    rw [heq, Forest.move_self]
    exact Goes.refl hs
  · rw [if_neg heq]
    have hunder := isAtOrUnder_iff hos.1 hsne hot.1
    refine EngineM.ends_bind (R := fun _ e' w' => ¬normalizeRelative fromPath <+: normalizeRelative toPath ∧ e' = e₁ ∧ w' = w₁)
      (EngineM.ends_refuse (fun h => ⟨fun hp => h (hunder.mpr hp), rfl, rfl⟩) (fun h => ⟨fun hm => ?_, Goes.refl hs⟩))
      (fun _ e₂ w₂ h₂ => ?_)
    · exact hm.2.2.elim heq (fun hr => hr.1 (hunder.mp h))
    obtain ⟨h1, rfl, rfl⟩ := h₂
    exact (renameEntry_goes hs hos hot hcs hct hsne hne h1 hyields ht).mono
      (fun _ _ _ h => ⟨⟨hsne, hne, Or.inr ⟨h1, h.1⟩⟩, h.2⟩)
      (fun _ _ _ h => ⟨fun hm => h.1 (hm.2.2.elim (fun hc => absurd hc heq) (fun hr => hr.2)), h.2⟩)

end operation

end MovingAux

end TribiosVfs

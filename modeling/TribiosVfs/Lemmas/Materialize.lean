import TribiosVfs.Lemmas.Publication
import TribiosVfs.Lemmas.View

/-!
# Copies of the view

`materialize_visible_entry_at`, run alone with no call failing, into a place where nothing is: it builds a copy of everything that
shows at and beneath a path, with kinds, contents, link targets, permission bits and times, and changes nothing else. The permission
bits of directories go through the process's umask, and their set-group-ID bit is that of the directory they are made in.
-/

namespace TribiosVfs

open PublicationAux ViewAux Runs

/-- A copy of an entry, made on a host where directories inherit a set-group-ID bit. -/
structure Host.Mirrors (h : Host) (bit : Nat) (n n' : Node) : Prop where
  contents : n'.contents = n.contents
  file : n.isReg = true → n'.attrs.perm = permBits n.attrs.perm
  directory : n.isDir = true → n'.attrs.perm = (h.maskPerm n.attrs.perm &&& 1023) ||| bit
  times : n.isLnk = false → n'.attrs.atime = n.attrs.atime ∧ n'.attrs.mtime = n.attrs.mtime

/-- A copy of a tree of entries. -/
def Host.Copies (h : Host) (bit : Nat) (v t : Forest Name Node) : Prop := ∀ s, Option.Rel (h.Mirrors bit) (v s) (t s)

/-- What shows at and beneath a path can be copied within a depth. -/
structure Copyable (e : Engine) (t : Tree) (r : RelPath) (fuel : Nat) : Prop where
  ordinary : Ordinary r
  unbarred : Unbarred (e.view t) r
  shows : (e.sight t r).isSome = true
  depth : ∀ s, (e.sight t (r ++ s)).isSome = true → s.length < fuel
  targets : ∀ s n target, e.sight t (r ++ s) = some n → n.contents = .symlink target → target ≠ [] ∧ cStr target = target

/-- A place within the recovery directory where nothing is. -/
structure Vacant (e : Engine) (h : Host) (d : HostPath) : Prop where
  ordinary : Ordinary d
  within : e.recoveryDir <+: d.dropLast
  parent : isDirAt h.tree d.dropLast = true
  absent : h.tree.get d = none

namespace MaterializeAux

theorem Vacant.ne {e : Engine} {h : Host} {d : HostPath} (hv : Vacant e h d) : d ≠ [] := by
  rintro rfl
  exact Engine.Placed.recovery_ne (List.prefix_nil.mp hv.within)

section edits

variable {e : Engine} {h h' : Host} {d : HostPath}

/-- An edit in the recovery directory is not seen in the layers. -/
theorem layers_of_edit (hp : e.Placed) (he : Edit d h h') (hd : e.recoveryDir <+: d.dropLast) (p : RelPath) :
    h'.tree.get (e.upperPath p) = h.tree.get (e.upperPath p) ∧ h'.tree.get (e.basePath p) = h.tree.get (e.basePath p) := by
  have hd' : e.recoveryDir <+: d := hd.trans (List.dropLast_prefix d)
  refine ⟨he.off _ (fun hc => ?_) (fun hc => ?_), he.off _ (fun hc => ?_) (fun hc => ?_)⟩
  · exact hp.not_both (List.prefix_append _ _) (hd'.trans hc)
  · exact hp.not_both (List.prefix_append _ _) (hc ▸ hd)
  · exact hp.base_apart (List.prefix_append _ _) (Engine.Placed.own_recovery (hd'.trans hc))
  · exact hp.base_apart (List.prefix_append _ _) (Engine.Placed.own_recovery (hc ▸ hd))

theorem sight_of_edit (hp : e.Placed) (he : Edit d h h') (hd : e.recoveryDir <+: d.dropLast) :
    e.sight h'.tree = e.sight h.tree := by
  funext p
  obtain ⟨hu, hb⟩ := layers_of_edit hp he hd p
  rw [Engine.sight, Engine.sight, Forest.overlay, Forest.overlay, hu, hb]

theorem view_of_edit (hp : e.Placed) (he : Edit d h h') (hd : e.recoveryDir <+: d.dropLast) :
    e.view h'.tree = e.view h.tree := by
  funext p
  rw [view_sight, view_sight, sight_of_edit hp he hd]

theorem layered_of_edit (hl : Layered e h.tree) (he : Edit d h h') (hd : e.recoveryDir <+: d.dropLast) : Layered e h'.tree := by
  have hp := hl.placed
  have hd' : e.recoveryDir <+: d := hd.trans (List.dropLast_prefix d)
  refine ⟨hp, he.wf, ?_, ?_, fun p n m hn hv hm => ?_⟩
  · rw [he.isDirAt_eq (fun hc => hp.not_both (List.prefix_refl _) (hd'.trans hc))]
    exact hl.upper
  · rw [he.isDirAt_eq (fun hc => hp.base_apart (List.prefix_refl _) (Engine.Placed.own_recovery (hd'.trans hc)))]
    exact hl.base
  · obtain ⟨hu, hb⟩ := layers_of_edit hp he hd p
    refine hl.agrees p n m ?_ hv ?_
    · rw [Engine.upper, ← hu]
      exact hn
    · rw [Engine.base, ← hb]
      exact hm

theorem copyable_of_edit (hp : e.Placed) (he : Edit d h h') (hd : e.recoveryDir <+: d.dropLast) {r : RelPath} {fuel : Nat}
    (hc : Copyable e h.tree r fuel) : Copyable e h'.tree r fuel := by
  obtain ⟨h1, h2, h3, h4, h5⟩ := hc
  have hs := sight_of_edit hp he hd
  exact ⟨h1, by rw [view_of_edit hp he hd]; exact h2, by rw [hs]; exact h3, by rw [hs]; exact h4, by rw [hs]; exact h5⟩

theorem rel_mono {α β : Type} {R S : α → β → Prop} {x : Option α} {y : Option β} (h : Option.Rel R x y) (hRS : ∀ a b, R a b → S a b) :
    Option.Rel S x y := by
  cases h with
  | some hab => exact Option.Rel.some (hRS _ _ hab)
  | none => exact Option.Rel.none

theorem maskPerm_of_edit (he : Edit d h h') (perm : Nat) : h'.maskPerm perm = h.maskPerm perm := by
  rw [Host.maskPerm, Host.maskPerm, he.umask]

theorem mirrors_of_edit (he : Edit d h h') {bit : Nat} {n n' : Node} (hm : h'.Mirrors bit n n') : h.Mirrors bit n n' :=
  ⟨hm.contents, hm.file, fun hd => (hm.directory hd).trans (by rw [maskPerm_of_edit he]), hm.times⟩

end edits

section children

variable {e : Engine} {t : Tree} {r : RelPath} {fuel : Nat}

/-- What shows shows under a directory. -/
theorem sight_parent (hl : Layered e t) {p : RelPath} {c : Name} (hs : (e.sight t (p ++ [c])).isSome = true) :
    ∃ n, e.sight t p = some n ∧ n.isDir = true := by
  have hview : (e.view t (p ++ [c])).isSome = true := by
    rw [view_sight, Option.isSome_map]
    exact hs
  obtain ⟨n, hn, hd⟩ := view_grounded (h := ⟨t, 0, 0, 0⟩) hl p c hview
  rw [view_sight] at hn
  obtain ⟨m, hm, rfl⟩ := Option.map_eq_some_iff.mp hn
  exact ⟨m, hm, m.lasting_isDir ▸ hd⟩

/-- Nothing shows beneath what is no directory. -/
theorem sight_beneath (hl : Layered e t) {p s : RelPath} (hs : s ≠ []) (hp : ∀ n, e.sight t p = some n → n.isDir = false) :
    e.sight t (p ++ s) = none := by
  by_contra hc
  have hview : (e.view t (p ++ s)).isSome = true := by
    rw [view_sight, Option.isSome_map]
    exact Option.isSome_iff_ne_none.mpr hc
  obtain ⟨n, hn, hd⟩ := (view_grounded (h := ⟨t, 0, 0, 0⟩) hl).ancestor hview (List.prefix_append p s) (by simpa using hs)
  rw [view_sight] at hn
  obtain ⟨m, hm, rfl⟩ := Option.map_eq_some_iff.mp hn
  rw [m.lasting_isDir, hp m hm] at hd
  cases hd

/-- Names that show are names of the host. -/
theorem sight_ordinary (hl : Layered e t) {p : RelPath} (hs : (e.sight t p).isSome = true) : Ordinary p := by
  have hord : ∀ d : HostPath, (t.get (d ++ p)).isSome = true → Ordinary p := fun d hd =>
    ⟨fun n hn => (hl.wf.ordinary _ hd).1 n (List.mem_append_right _ hn), fun n hn => (hl.wf.ordinary _ hd).2 n (List.mem_append_right _ hn)⟩
  unfold Engine.sight Forest.overlay at hs
  cases hu : t.get (e.upperPath p) with
  | some n => exact hord e.upperDir (by rw [Engine.upperPath] at hu; rw [hu]; rfl)
  | none =>
    by_cases hv : e.Hides p
    · simp [hu, hv] at hs
    · simp only [hu, hv, if_false, Option.none_or] at hs
      exact hord e.baseDir hs

theorem Copyable.child (hl : Layered e t) (hc : Copyable e t r (fuel + 1)) {c : Name}
    (hs : (e.sight t (r ++ [c])).isSome = true) : Copyable e t (joinRelative r c) fuel := by
  obtain ⟨h1, h2, h3, h4, h5⟩ := hc
  refine ⟨sight_ordinary hl hs, fun a hap hne n hn => ?_, hs, fun s hs' => ?_, fun s n target hn => ?_⟩
  · rcases initial_append_cases hap hne with har | ⟨a', rfl, ha', hane⟩
    · by_cases heq : a = r
      · obtain ⟨m, hm, hd⟩ := sight_parent hl hs
        rw [heq, view_sight, hm, Option.map_some, Option.some.injEq] at hn
        rw [← hn, isLnk_lasting]
        exact Node.isLnk_of_isDir hd
      · exact h2 a har heq n hn
    · rcases List.prefix_cons_iff.mp ha' with rfl | ⟨t', rfl, ht'⟩
      · obtain ⟨m, hm, hd⟩ := sight_parent hl hs
        rw [List.append_nil, view_sight, hm, Option.map_some, Option.some.injEq] at hn
        rw [← hn, isLnk_lasting]
        exact Node.isLnk_of_isDir hd
      · rw [List.prefix_nil.mp ht'] at hane
        exact absurd rfl hane
  · have := h4 (c :: s) (by rw [joinRelative, List.append_assoc, List.singleton_append] at hs'; exact hs')
    rw [List.length_cons] at this
    omega
  · rw [joinRelative, List.append_assoc, List.singleton_append] at hn
    exact h5 (c :: s) n target hn

end children

end MaterializeAux

open MaterializeAux

/-- A copy has been made at a path, and nothing else has changed. -/
def Built (w : World) (d : HostPath) (v : Forest Name Node) (w' : World) : Prop :=
  ∃ h', w' = { w with host := h' } ∧ Edit d w.host h' ∧
    w.host.Copies (groupBit w.host.tree d.dropLast) v (h'.tree.sub d)

namespace MaterializeAux

/-! ## Entries with nothing beneath them -/

section leaves

variable {e : Engine} {w : World} {d : HostPath} {v : Forest Name Node} {n : Node}

theorem copies_leaf {h h' : Host} {bit : Nat} (hn : v [] = some n) (hv : ∀ s, s ≠ [] → v s = none) (n' : Node)
    (hd : h'.tree.get d = some n') (hm : h.Mirrors bit n n') (hbeneath : ∀ s, s ≠ [] → h'.tree.get (d ++ s) = none) :
    h.Copies bit v (h'.tree.sub d) := by
  intro s
  unfold Tree.sub
  by_cases hs : s = []
  · rw [hs, List.append_nil, hn, hd]
    exact Option.Rel.some hm
  · rw [hv s hs, hbeneath s hs]
    exact Option.Rel.none

theorem alter_beneath (h : Host) (p : HostPath) (f : Node → Node) {s : List Name} (hs : s ≠ []) :
    (h.alter p f).tree.get (p ++ s) = h.tree.get (p ++ s) := by
  rw [alter_get, if_neg (by simpa using hs)]

theorem alter_self {h : Host} {p : HostPath} (f : Node → Node) (hn : h.tree.get p = some n) :
    (h.alter p f).tree.get p = some (f n) := by
  rw [alter_get, if_pos rfl, hn, Option.map_some]

/-- The copy of a regular file. -/
theorem materializeFile_ends (hw : w.host.tree.WF) {src : HostPath} {data : Bytes} (hsrc : w.host.tree.get src = some n)
    (hc : n.contents = .file data) (hva : Vacant e w.host d) (hn : v [] = some n) (hv : ∀ s, s ≠ [] → v s = none) :
    Ends (do
      (Io.call (.copyFile src d)).orFail Errno.EIO
      Io.call (.chmod d n.attrs.perm)
      Io.call (.utimes d n.attrs.atime n.attrs.mtime)) w (fun _ w' => Built w d v w') (fun _ _ => False) := by
  have hne := Vacant.ne hva
  have hnl : n.isLnk = false := by rw [Node.isLnk, hc]
  generalize hh₁ : w.host.addEntry d (.file data) n.attrs.perm = h₁
  have hrun₁ : w.host.copyFile src d = (.ok (), h₁) := by
    rw [Host.copyFile, atNode_some hw hsrc (fun _ => hnl), hc]
    dsimp only
    rw [atMissing_real hw hva.ordinary hva.parent hne, hva.absent, hh₁]
  have hedit₁ : Edit d w.host h₁ := hh₁ ▸ edit_addEntry hw hne hva.ordinary hva.parent hva.absent _ _
  have hget₁ : h₁.tree.get d = some ⟨.file data, ⟨w.host.nextIno, n.attrs.perm, w.host.now, w.host.now, w.host.now⟩⟩ := by
    rw [← hh₁, addEntry_get _ hne, if_pos rfl]
  generalize hm₁ : (⟨.file data, ⟨w.host.nextIno, n.attrs.perm, w.host.now, w.host.now, w.host.now⟩⟩ : Node) = m₁ at hget₁
  generalize hf : (fun m : Node => { m with attrs := { m.attrs with perm := permBits n.attrs.perm, ctime := h₁.now } }) = f
  generalize hh₂ : h₁.alter d f = h₂
  have hrun₂ : h₁.chmod d n.attrs.perm = (.ok (), h₂) := by
    rw [Host.chmod, atNode_some hedit₁.wf hget₁ (fun _ => by rw [← hm₁]; rfl), hf, hh₂]
  have hget₂ : h₂.tree.get d = some (f m₁) := hh₂ ▸ alter_self f hget₁
  have hedit₂ : Edit d h₁ h₂ := hh₂ ▸ edit_alter hedit₁.wf hget₁ (by rw [← hf]; rfl)
  generalize hg : (fun m : Node => { m with attrs := { m.attrs with atime := n.attrs.atime, mtime := n.attrs.mtime, ctime := h₂.now } }) = g
  have hrun₃ : h₂.utimes d n.attrs.atime n.attrs.mtime = (.ok (), h₂.alter d g) := by
    rw [Host.utimes, atNode_some hedit₂.wf hget₂ (fun _ => by rw [← hm₁, ← hf]; rfl), hg]
  have hget₃ := alter_self g hget₂
  have hedit₃ : Edit d h₂ (h₂.alter d g) := edit_alter hedit₂.wf hget₂ (by rw [← hg]; rfl)
  refine ends_bind (R := fun _ w₁ => w₁ = { w with host := h₁ }) (ends_orFail (X := fun _ _ => False)
    (ends_host (·.copyFile src d) rfl hrun₁ rfl) (fun _ _ hx => hx.elim)) (fun _ w₁ hw₁ => ?_)
  subst hw₁
  refine ends_bind (R := fun _ w₂ => w₂ = { w with host := h₂ }) (ends_host (·.chmod d n.attrs.perm) rfl hrun₂ rfl)
    (fun _ w₂ hw₂ => ?_)
  subst hw₂
  refine ends_host (·.utimes d n.attrs.atime n.attrs.mtime) rfl hrun₃ ⟨_, rfl, (hedit₁.trans hedit₂).trans hedit₃, ?_⟩
  refine copies_leaf hn hv _ hget₃ ⟨?_, fun _ => ?_, fun hd => ?_, fun _ => ?_⟩ (fun s hs => ?_)
  · rw [← hg, ← hf, ← hm₁]
    exact hc.symm
  · rw [← hg, ← hf]
  · rw [Node.isDir, hc] at hd
    cases hd
  · rw [← hg]
    exact ⟨rfl, rfl⟩
  · rw [alter_beneath _ _ _ hs, ← hh₂, alter_beneath _ _ _ hs, ← hh₁]
    exact addEntry_beneath hw hne hva.absent _ _ hs

/-- The copy of a symlink. -/
theorem materializeSymlink_ends (hw : w.host.tree.WF) {src : HostPath} {target : Bytes} (hsrc : w.host.tree.get src = some n)
    (hc : n.contents = .symlink target) (ht : target ≠ [] ∧ cStr target = target) (hva : Vacant e w.host d) (hn : v [] = some n)
    (hv : ∀ s, s ≠ [] → v s = none) :
    Ends (do
      let target ← (Io.call (.readSymlink src)).attempt
      (Io.call (.symlink (target.toOption.getD []) d)).orFail Errno.EIO) w (fun _ w' => Built w d v w') (fun _ _ => False) := by
  have hne := Vacant.ne hva
  have hread : (exec (.readSymlink src) w).1 = .ok target := by
    change (w.host.readSymlink src).1 = _
    rw [Host.readSymlink, atNode_some hw hsrc (fun hf => by cases hf), hc]
  refine ends_bind (R := fun r w₁ => r = .ok target ∧ w₁ = w) (ends_of_run (show _ = (.ok (.ok target), w) from ?_) ⟨rfl, rfl⟩)
    (fun r w₁ hr => ?_)
  · rw [run_attempt, run_call w _ rfl, hread]
  obtain ⟨rfl, rfl⟩ := hr
  have hrun : w₁.host.symlink target d = (.ok (), w₁.host.addEntry d (.symlink target) 511) := by
    rw [symlink_real hw hne hva.ordinary hva.parent (by rw [ht.2]; exact ht.1), hva.absent, ht.2]
  refine ends_orFail (X := fun _ _ => False) (ends_host (·.symlink target d) rfl hrun
    ⟨_, rfl, edit_addEntry hw hne hva.ordinary hva.parent hva.absent _ _, ?_⟩) (fun _ _ hx => hx.elim)
  refine copies_leaf hn hv ⟨.symlink target, ⟨w₁.host.nextIno, 511, w₁.host.now, w₁.host.now, w₁.host.now⟩⟩ ?_ ?_
    (fun s hs => addEntry_beneath hw hne hva.absent _ _ hs)
  · rw [addEntry_get _ hne, if_pos rfl]
  · refine ⟨hc.symm, fun hreg => ?_, fun hd => ?_, fun hl => ?_⟩
    · rw [Node.isReg, hc] at hreg
      cases hreg
    · rw [Node.isDir, hc] at hd
      cases hd
    · rw [Node.isLnk, hc] at hl
      cases hl

end leaves

/-! ## Directories -/

/-- Copies have been made beneath a directory, under some names. -/
structure Filled (e : Engine) (r : RelPath) (w : World) (d : HostPath) (names : List Name) (h' : Host) : Prop where
  edit : Edit d w.host h'
  directory : (h'.tree.get d).map Node.lasting = (w.host.tree.get d).map Node.lasting
  copies : ∀ c ∈ names, w.host.Copies (groupBit w.host.tree d) (fun s => e.sight w.host.tree (r ++ c :: s))
    (fun s => h'.tree.get (d ++ c :: s))
  others : ∀ c, c ∉ names → ∀ s, h'.tree.get (d ++ c :: s) = w.host.tree.get (d ++ c :: s)

section directories

variable {e : Engine} {r : RelPath} {d : HostPath} {fuel : Nat}

theorem not_child_self {d : HostPath} {c : Name} : ¬d ++ [c] <+: d := by
  intro h
  have := h.length_le
  simp at this

/-- A copy under one name, and then copies under others. -/
theorem Filled.cons {w : World} (hp : e.Placed) (hwithin : e.recoveryDir <+: d) (hne : d ≠ []) {c : Name} {names : List Name}
    (hc : c ∉ names) {h₁ h₂ : Host} (he : Edit (d ++ [c]) w.host h₁)
    (hcopy : w.host.Copies (groupBit w.host.tree (d ++ [c]).dropLast) (fun s => e.sight w.host.tree (joinRelative r c ++ s))
      (h₁.tree.sub (d ++ [c])))
    (hrest : Filled e r { w with host := h₁ } d names h₂) : Filled e r w d (c :: names) h₂ := by
  have hdrop : (d ++ [c]).dropLast = d := List.dropLast_concat
  have hsight : e.sight h₁.tree = e.sight w.host.tree := sight_of_edit hp he (by rw [hdrop]; exact hwithin)
  have hbit := he.groupBit_eq
  rw [hdrop] at hcopy hbit
  refine ⟨(he.up hne).trans hrest.edit, ?_, fun c' hc' s => ?_, fun c' hc' s => ?_⟩
  · have := he.parent
    rw [hdrop] at this
    exact hrest.directory.trans this
  · rcases List.mem_cons.mp hc' with rfl | hmem
    · have hthis := hcopy s
      dsimp only
      rw [hrest.others c' hc s]
      dsimp only at hthis
      rw [joinRelative, List.append_assoc, List.singleton_append, Tree.sub, List.append_assoc, List.singleton_append] at hthis
      exact hthis
    · have hthis := hrest.copies c' hmem s
      simp only [hsight, hbit] at hthis
      exact rel_mono hthis (fun _ _ hm => mirrors_of_edit he hm)
  · rw [hrest.others c' (fun h => hc' (List.mem_cons_of_mem _ h)) s]
    refine he.off _ (fun h => ?_) (fun h => ?_)
    · have hcc := (List.prefix_append_right_inj d).mp h
      rw [List.cons_prefix_cons] at hcc
      exact hc' (hcc.1 ▸ List.mem_cons_self)
    · rw [hdrop] at h
      simp at h

/-- The loop over the entries of a directory. -/
theorem materializeChildren_ends
    (ih : ∀ {w : World} {r : RelPath} {d : HostPath}, Layered e w.host.tree → Copyable e w.host.tree r fuel → Vacant e w.host d →
      Ends (materializeVisibleEntryAt e fuel r d) w (fun _ w' => Built w d (fun s => e.sight w.host.tree (r ++ s)) w')
        (fun _ _ => False))
    (hwithin : e.recoveryDir <+: d) (ho : Ordinary d) (entries : List DirEntry) : ∀ {w : World}, Layered e w.host.tree →
      entries.Pairwise (fun a b => a.name ≠ b.name) →
      (∀ x ∈ entries, Copyable e w.host.tree (joinRelative r x.name) fuel ∧ w.host.tree.get (d ++ [x.name]) = none) →
      isDirAt w.host.tree d = true →
      Ends (Fallible.forEach (fun child => materializeVisibleEntryAt e fuel (joinRelative r child.name) (d ++ [child.name])) entries) w
        (fun _ w' => ∃ h', w' = { w with host := h' } ∧ Filled e r w d (entries.map (·.name)) h') (fun _ _ => False) := by
  have hne : d ≠ [] := by
    rintro rfl
    exact Engine.Placed.recovery_ne (List.prefix_nil.mp hwithin)
  induction entries with
  | nil =>
    intro w hl _ _ _
    refine ends_pure ⟨w.host, rfl, Edit.refl hl.wf d, rfl, fun c hc => ?_, fun _ _ _ => rfl⟩
    cases hc
  | cons x entries hrec =>
    intro w hl hnodup hall hd
    obtain ⟨hfirst, hrest⟩ := List.pairwise_cons.mp hnodup
    obtain ⟨hcopy, hnone⟩ := hall x List.mem_cons_self
    have hdrop : (d ++ [x.name]).dropLast = d := List.dropLast_concat
    have hva : Vacant e w.host (d ++ [x.name]) := by
      refine ⟨ho.append ⟨fun n hn => ?_, fun n hn => ?_⟩, by rw [hdrop]; exact hwithin, by rw [hdrop]; exact hd, hnone⟩
      · exact hcopy.ordinary.1 n (List.mem_append_right _ hn)
      · exact hcopy.ordinary.2 n (List.mem_append_right _ hn)
    refine ends_bind (ih hl hcopy hva) (fun _ w₁ hw₁ => ?_)
    obtain ⟨h₁, rfl, he, hcopies⟩ := hw₁
    have hwithin' : e.recoveryDir <+: (d ++ [x.name]).dropLast := by rw [hdrop]; exact hwithin
    have hd₁ : isDirAt h₁.tree d = true := by
      rw [he.isDirAt_eq not_child_self]
      exact hd
    refine (hrec (w := { w with host := h₁ }) (layered_of_edit hl he hwithin') hrest (fun y hy => ?_) hd₁).mono (fun _ w₂ hw₂ => ?_)
      (fun _ _ hx => hx)
    · obtain ⟨hcopy', hnone'⟩ := hall y (List.mem_cons_of_mem _ hy)
      refine ⟨copyable_of_edit hl.placed he hwithin' hcopy', ?_⟩
      refine (he.off _ (fun h => ?_) (fun h => ?_)).trans hnone'
      · have hcc := (List.prefix_append_right_inj d).mp h
        rw [List.cons_prefix_cons] at hcc
        exact hfirst y hy hcc.1
      · rw [hdrop] at h
        simp at h
    · obtain ⟨h₂, rfl, hfilled⟩ := hw₂
      refine ⟨h₂, rfl, Filled.cons hl.placed hwithin hne (fun hmem => ?_) he hcopies hfilled⟩
      obtain ⟨y, hy, hyx⟩ := List.mem_map.mp hmem
      exact hfirst y hy hyx.symm

/-- The copy of a directory. -/
theorem materializeDirectory_ends
    (ih : ∀ {w : World} {r : RelPath} {d : HostPath}, Layered e w.host.tree → Copyable e w.host.tree r fuel → Vacant e w.host d →
      Ends (materializeVisibleEntryAt e fuel r d) w (fun _ w' => Built w d (fun s => e.sight w.host.tree (r ++ s)) w')
        (fun _ _ => False))
    {w : World} (hl : Layered e w.host.tree) (hc : Copyable e w.host.tree r (fuel + 1)) (hva : Vacant e w.host d) {n : Node}
    (hn : e.sight w.host.tree r = some n) (hnd : n.isDir = true) :
    Ends (do
      mkdirOrExisting d n.attrs.perm
      let children ← mergeVisibleDirectoryEntries r e
      Fallible.forEach (fun child => materializeVisibleEntryAt e fuel (joinRelative r child.name) (d ++ [child.name])) children
      (Io.call (.utimes d n.attrs.atime n.attrs.mtime)).ignore) w
      (fun _ w' => Built w d (fun s => e.sight w.host.tree (r ++ s)) w') (fun _ _ => False) := by
  have hne := Vacant.ne hva
  have hwithin : e.recoveryDir <+: d := hva.within.trans (List.dropLast_prefix d)
  generalize hh₁ : w.host.addEntry d .dir (w.host.directoryPerm d.dropLast n.attrs.perm) = h₁
  have hrun₁ : w.host.mkdir d n.attrs.perm = (.ok (), h₁) := by
    rw [mkdir_real hl.wf hne hva.ordinary hva.parent, hva.absent, hh₁]
  have hedit₁ : Edit d w.host h₁ := hh₁ ▸ edit_addEntry hl.wf hne hva.ordinary hva.parent hva.absent _ _
  have hget₁ : h₁.tree.get d = some ⟨.dir, ⟨w.host.nextIno, w.host.directoryPerm d.dropLast n.attrs.perm, w.host.now, w.host.now, w.host.now⟩⟩ := by
    rw [← hh₁, addEntry_get _ hne, if_pos rfl]
  have hbit₁ : groupBit h₁.tree d = groupBit w.host.tree d.dropLast := by
    rw [groupBit, nodeAt_of_ne hne, hget₁]
    exact directoryPerm_and _ _ _
  have hbelow₁ : ∀ s, s ≠ [] → h₁.tree.get (d ++ s) = none := fun s hs => hh₁ ▸ addEntry_beneath hl.wf hne hva.absent _ _ hs
  have hl₁ := layered_of_edit hl hedit₁ hva.within
  have hsight₁ := sight_of_edit hl.placed hedit₁ hva.within
  have hc₁ := copyable_of_edit hl.placed hedit₁ hva.within hc
  have hn₁ : e.sight h₁.tree r = some n := by rw [hsight₁, hn]
  have hlists := merged_lists hl₁ hc₁.ordinary hc₁.unbarred (n := n.lasting) (by rw [view_sight, hn₁]; rfl) (n.lasting_isDir.trans hnd)
  have hshown : ∀ c, (∃ x ∈ merged e h₁ r, x.name = c) ↔ (e.sight h₁.tree (r ++ [c])).isSome = true := by
    intro c
    rw [hlists.names, view_sight, Option.isSome_map]
  refine ends_bind (R := fun _ w₁ => w₁ = { w with host := h₁ }) (ends_orElseDo (X := fun _ _ => False)
    (ends_host (·.mkdir d n.attrs.perm) rfl hrun₁ rfl) (fun _ _ hx => hx.elim)) (fun _ w₁ hw₁ => ?_)
  subst hw₁
  refine ends_bind (R := fun children w₁ => children = merged e h₁ r ∧ w₁ = { w with host := h₁ })
    (ends_of_run (run_mergeVisible _ r e) ⟨rfl, rfl⟩) (fun children w₁ hw₁ => ?_)
  obtain ⟨rfl, rfl⟩ := hw₁
  refine ends_bind (materializeChildren_ends (r := r) ih hwithin hva.ordinary (merged e h₁ r) (w := { w with host := h₁ }) hl₁
    (sorted_nodup hlists.sorted) (fun x hx => ?_) ((isDirAt_iff hne).mpr ⟨_, hget₁, rfl⟩)) (fun _ w₂ hw₂ => ?_)
  · exact ⟨Copyable.child hl₁ hc₁ ((hshown x.name).mp ⟨x, hx, rfl⟩), hbelow₁ [x.name] (by simp)⟩
  obtain ⟨h₂, rfl, hfilled⟩ := hw₂
  have hdir₂ := hfilled.directory
  rw [hget₁] at hdir₂
  obtain ⟨m, hm, hlast⟩ := Option.map_eq_some_iff.mp hdir₂
  have hmd : m.isDir = true := by
    rw [← m.lasting_isDir, hlast]
    rfl
  generalize hg : (fun k : Node => { k with attrs := { k.attrs with atime := n.attrs.atime, mtime := n.attrs.mtime, ctime := h₂.now } }) = g
  have hrun₃ : h₂.utimes d n.attrs.atime n.attrs.mtime = (.ok (), h₂.alter d g) := by
    rw [Host.utimes, atNode_some hfilled.edit.wf hm (fun _ => Node.isLnk_of_isDir hmd), hg]
  have hedit₃ : Edit d h₂ (h₂.alter d g) := edit_alter hfilled.edit.wf hm (by rw [← hg]; rfl)
  refine ends_ignore (ends_host (·.utimes d n.attrs.atime n.attrs.mtime) rfl hrun₃
    ⟨_, rfl, (hedit₁.trans hfilled.edit).trans hedit₃, fun s => ?_⟩)
  unfold Tree.sub
  cases s with
  | nil =>
    dsimp only
    rw [List.append_nil, List.append_nil, hn, alter_self g hm]
    refine Option.Rel.some ⟨?_, fun hreg => ?_, fun _ => ?_, fun _ => ?_⟩
    · rw [← hg, Node.contents_of_isDir hnd]
      exact Node.contents_of_isDir hmd
    · rw [Node.isReg, Node.contents_of_isDir hnd] at hreg
      cases hreg
    · have hperm := congrArg (fun k : Node => k.attrs.perm) hlast
      simp only [Node.lasting_perm] at hperm
      rw [← hg]
      exact hperm
    · rw [← hg]
      exact ⟨rfl, rfl⟩
  | cons c s =>
    rw [alter_beneath _ _ _ (List.cons_ne_nil c s)]
    by_cases hmem : c ∈ (merged e h₁ r).map (·.name)
    · have hcopy := hfilled.copies c hmem s
      simp only [hsight₁, hbit₁] at hcopy
      exact rel_mono hcopy (fun _ _ hmm => mirrors_of_edit hedit₁ hmm)
    · have hnone : e.sight w.host.tree (r ++ [c]) = none := by
        by_contra hsome
        rw [← hsight₁] at hsome
        exact hmem (List.mem_map.mpr ((hshown c).mpr (Option.isSome_iff_ne_none.mpr hsome)))
      have hall : e.sight w.host.tree (r ++ c :: s) = none := by
        by_cases h0 : s = []
        · rw [h0, hnone]
        · have := sight_beneath hl (p := r ++ [c]) h0 (fun k hk => by rw [hnone] at hk; cases hk)
          rwa [List.append_assoc, List.singleton_append] at this
      dsimp only
      rw [hall, hfilled.others c hmem s, hbelow₁ (c :: s) (List.cons_ne_nil c s)]
      exact Option.Rel.none

end directories

end MaterializeAux

/-- `materialize_visible_entry_at` builds a copy of what shows at and beneath a path; the induction is on the depth left. -/
theorem materializeVisibleEntryAt_ends {e : Engine} (fuel : Nat) : ∀ {w : World} {r : RelPath} {d : HostPath}, Layered e w.host.tree →
    Copyable e w.host.tree r fuel → Vacant e w.host d →
    Ends (materializeVisibleEntryAt e fuel r d) w (fun _ w' => Built w d (fun s => e.sight w.host.tree (r ++ s)) w')
      (fun _ _ => False) := by
  induction fuel with
  | zero =>
    intro w r d _ hc _
    exact absurd (hc.depth [] (by rw [List.append_nil]; exact hc.shows)) (Nat.not_lt_zero _)
  | succ fuel ih =>
    intro w r d hl hc hva
    obtain ⟨n, hn⟩ := Option.isSome_iff_exists.mp hc.shows
    have hlook := lookup_sight hl hc.ordinary hc.unbarred
    rw [hn] at hlook
    obtain ⟨found, hfound, hnode⟩ := Option.map_eq_some_iff.mp hlook
    have hsrc := lookup_layer hl hc.ordinary hc.unbarred found.1 found.2 hfound
    rw [hnode] at hsrc
    have h0 : e.sight w.host.tree (r ++ []) = some n := by rw [List.append_nil, hn]
    have hbeneath : n.isDir = false → ∀ s, s ≠ [] → e.sight w.host.tree (r ++ s) = none := by
      intro hnd s hs
      refine sight_beneath hl hs (fun k hk => ?_)
      rw [hn, Option.some.injEq] at hk
      rw [← hk]
      exact hnd
    unfold materializeVisibleEntryAt
    refine ends_bind (R := fun f w₁ => f = some found ∧ w₁ = w) (ends_of_run (run_find w r e) ⟨hfound, rfl⟩) (fun f w₁ hf => ?_)
    obtain ⟨rfl, rfl⟩ := hf
    obtain ⟨layer, st⟩ := found
    simp only at hnode hsrc
    subst hnode
    dsimp only
    cases hcon : st.contents with
    | dir => exact materializeDirectory_ends ih hl hc hva hn (Node.isDir_of_contents hcon)
    | symlink target =>
      exact materializeSymlink_ends hl.wf hsrc hcon (hc.targets [] st target h0 hcon) hva h0
        (hbeneath (by rw [Node.isDir, hcon]))
    | file data => exact materializeFile_ends hl.wf hsrc hcon hva h0 (hbeneath (by rw [Node.isDir, hcon]))

/-- The symlinks at and beneath a path have targets that a symlink can have. -/
def SoundTargets (v : Forest Name Node) (r : RelPath) : Prop :=
  ∀ s n target, v (r ++ s) = some n → n.contents = .symlink target → target ≠ [] ∧ cStr target = target

/-- `materialize_visible_entry_at`, with as much depth as the host's paths have. -/
theorem materialize_ends {e : Engine} {w : World} {r : RelPath} {d : HostPath} (hl : Layered e w.host.tree) (ho : Ordinary r)
    (hc : Unbarred (e.view w.host.tree) r) (hs : (e.sight w.host.tree r).isSome = true) (ht : SoundTargets (e.sight w.host.tree) r)
    (hva : Vacant e w.host d) :
    Ends (materialize e r d) w (fun _ w' => Built w d (fun s => e.sight w.host.tree (r ++ s)) w') (fun _ _ => False) := by
  unfold materialize
  refine ends_bind (R := fun fuel w₁ => fuel = w.host.tree.depth + 1 ∧ w₁ = w) (ends_call ⟨rfl, rfl⟩) (fun fuel w₁ hw₁ => ?_)
  obtain ⟨rfl, rfl⟩ := hw₁
  refine materializeVisibleEntryAt_ends _ hl ⟨ho, hc, hs, fun s hsome => ?_, ht⟩ hva
  have hlen : ∀ p : HostPath, (w₁.host.tree.get (p ++ (r ++ s))).isSome = true → s.length ≤ w₁.host.tree.depth := by
    intro p hp
    have := PathMap.length_le_depth hp
    rw [List.length_append, List.length_append] at this
    omega
  unfold Engine.sight Forest.overlay at hsome
  rw [Nat.lt_succ_iff]
  cases hu : w₁.host.tree.get (e.upperPath (r ++ s)) with
  | some n => exact hlen e.upperDir (by rw [Engine.upperPath] at hu; rw [hu]; rfl)
  | none =>
    by_cases hv : e.Hides (r ++ s)
    · simp [hu, hv] at hsome
    · simp only [hu, hv, if_false, Option.none_or] at hsome
      exact hlen e.baseDir hsome

end TribiosVfs

import TribiosVfs.Lemmas.Serving

/-!
# Operations on the tree

Each operation of a Workspace that names a path, run alone with no call failing: what it comes to is what it comes to on the tree
that shows, and the engine goes on serving.
-/

namespace TribiosVfs

open PublicationAux ViewAux PublishingAux MaterializeAux Runs

namespace CopyOnWriteAux

/-! ## The tree and its layers -/

section tree

variable {e : Engine} {w : World} {r : RelPath} (hs : Serves e w)

include hs

theorem layered : Layered e w.host.tree := hs.ready.home.layered hs.agrees

omit hs in
theorem unbarred_of_clear (hc : (e.shape w.host.tree).Clear r) : Unbarred (e.view w.host.tree) r := by
  intro a hap hne n hn
  cases hcon : n.contents with
  | symlink target =>
    refine absurd ?_ (hc a hap hne target)
    rw [Engine.shape, hn, Option.map_some, hcon]
  | file data => rw [Node.isLnk, hcon]
  | dir => rw [Node.isLnk, hcon]

omit hs in
theorem shape_dir {p : RelPath} : (∃ n, e.view w.host.tree p = some n ∧ n.isDir = true) ↔ e.shape w.host.tree p = some .dir := by
  rw [Engine.shape, Option.map_eq_some_iff]
  constructor
  · rintro ⟨n, hn, hd⟩
    exact ⟨n, hn, Node.contents_of_isDir hd⟩
  · rintro ⟨n, hn, hd⟩
    exact ⟨n, hn, Node.isDir_of_contents hd⟩

/-- A lookup finds what the tree holds. -/
theorem lookup_shape (ho : Ordinary r) (hc : (e.shape w.host.tree).Clear r) :
    (e.lookup w.host r).map (fun found => found.2.contents) = e.shape w.host.tree r := by
  have hl := lookup_sight (layered hs) ho (unbarred_of_clear hc)
  rw [Engine.shape, view_sight, ← hl, Option.map_map, Option.map_map]
  cases e.lookup w.host r <;> simp

/-- The root is a directory. -/
theorem shape_root : e.shape w.host.tree [] = some .dir := shape_dir.mp (view_root hs.ready.home)

theorem ne_root {c : Contents} (h : e.shape w.host.tree r = some c) (hc : c ≠ .dir) : r ≠ [] := by
  rintro rfl
  rw [shape_root hs, Option.some.injEq] at h
  exact hc h.symm

/-- What is there lies in a directory. -/
theorem shape_parent (hne : r ≠ []) (h : (e.shape w.host.tree r).isSome = true) : e.shape w.host.tree (parentOf r) = some .dir := by
  rw [Engine.shape, Option.isSome_map] at h
  exact shape_dir.mp ((view_grounded (layered hs)).ancestor h (List.dropLast_prefix r) (dropLast_ne_self hne))

/-- Nothing is beneath what is no directory. -/
theorem shape_beneath (h : e.shape w.host.tree r ≠ some .dir) {s : RelPath} (hne : s ≠ []) : e.shape w.host.tree (r ++ s) = none := by
  refine Option.map_eq_none_iff.mpr ((view_grounded (layered hs)).none_beneath (fun n hn hd => h ?_) (List.prefix_append r s)
    (by simpa using hne))
  exact shape_dir.mp ⟨n, hn, hd⟩

omit hs in
/-- What the upper tree holds is what shows. -/
theorem shape_upper {n : Node} (hn : w.host.tree.get (e.upperPath r) = some n) : e.shape w.host.tree r = some n.contents := by
  have hu : e.upper w.host.tree r = some n.lasting := by
    rw [Engine.upper, hn]
    rfl
  rw [Engine.shape, Engine.view, Forest.overlay_upper hu, Option.map_some, n.lasting_contents]

end tree

/-! ## Publications -/

section publications

variable {α : Type} {e : Engine} {w : World} {r : RelPath} {kind : OperationKind}

/-- The engine has put contents at a path of its upper tree. -/
def Put (e : Engine) (w : World) (r : RelPath) (c : Contents) (e' : Engine) (w' : World) : Prop :=
  Goes e w ((e.shape w.host.tree).put r (some c)) e' w' ∧ ∃ n, w'.host.tree.get (e'.upperPath r) = some n ∧ n.contents = c

/-- A new entry is published where there is room for it. -/
theorem publishAt_new {prepareStage : Engine → HostPath → Io α} {c : Contents} (hs : Serves e w) (hk : kind ≠ .rename)
    (ho : Ordinary r) (hc : (e.shape w.host.tree).Clear r) (hne : r ≠ []) (hnone : e.shape w.host.tree r = none)
    (hprep : ∀ e₁ w₁, Prepares e₁ w₁ (prepareStage e₁) (fun _ => Leaf c)) :
    (publishAt kind r prepareStage).Ends e w
      (fun _ e' w' => (e.shape w.host.tree).Room r ∧ Put e w r c e' w')
      (fun _ e' w' => ¬(e.shape w.host.tree).Room r ∧ Goes e w (e.shape w.host.tree) e' w') := by
  have hup : w.host.tree.get (e.upperPath r) = none := by
    by_contra hsome
    obtain ⟨n, hn⟩ := Option.ne_none_iff_exists'.mp hsome
    rw [shape_upper hn] at hnone
    cases hnone
  refine (publishAt_ends (fun _ => Leaf c) hs.ready hs.agrees hk ho (unbarred_of_clear hc) (fun e₁ w₁ _ => hprep _ w₁)
    (fun _ sub _ n _ m hm => ?_)).mono (fun _ e' w' h => ?_) (fun _ e' w' h => ?_)
  · rw [hup] at hm
    cases hm
  · obtain ⟨hparent, e₁, w₁, hcar, rfl, sub, hleaf, hland⟩ := h
    have hm := hcar.memory
    have hgoes := goes_put hs hcar hne hleaf hland (fun c' hc' => by rw [hnone] at hc'; cases hc')
      (fun hd => by rw [hnone] at hd; cases hd) ho
    obtain ⟨n, hn, hnc⟩ := hleaf.entry
    refine ⟨⟨hne, hnone, shape_dir.mp hparent⟩, hgoes, n, ?_, hnc⟩
    have hpath : (e₁.forget r).upperPath r = e.upperPath r := by
      rw [hm]
      rfl
    rw [hpath, ← hn, ← hland.there, Tree.sub, List.append_nil]
  · obtain ⟨hcar, hno⟩ := h
    exact ⟨fun hroom => hno (shape_dir.mpr hroom.2.2), goes_carried hs hcar⟩

/-- A visible file is replaced by a changed copy. -/
theorem publishAt_changed {change : HostPath → Io α} {data data' : Bytes} {A : α → Prop} (hs : Serves e w) (hk : kind ≠ .rename)
    (ho : Ordinary r) (hc : (e.shape w.host.tree).Clear r) (hd : e.shape w.host.tree r = some (.file data))
    (hch : Rewrites change data data' A) :
    (publishAt kind r (copyAndChange r change)).Ends e w
      (fun a e' w' => A a ∧ Put e w r (.file data') e' w') (fun _ _ _ => False) := by
  have hne := ne_root hs hd (by simp)
  obtain ⟨n, hn, hnd⟩ := Option.map_eq_some_iff.mp hd
  refine (publishAt_ends (fun a sub => A a ∧ Leaf (.file data') sub) hs.ready hs.agrees hk ho (unbarred_of_clear hc)
    (fun e₁ w₁ hcar => ?_) (fun _ sub hgood k hk' m hm => ?_)).mono (fun a e' w' h => ?_) (fun _ e' w' h => ?_)
  · have hm := hcar.memory
    have hcon := hcar.view_contents r
    rw [hn, Option.map_some, hnd] at hcon
    obtain ⟨k, hk', hkd⟩ := Option.map_eq_some_iff.mp hcon
    have hbar := hcar.unbarred (unbarred_of_clear hc)
    have hagrees := hcar.agrees hs.agrees
    generalize e₁.directoryEntriesCache = cache at hm
    subst hm
    exact prepares_changed hcar.ready.quiet hagrees ho hbar hk' hkd hch
  · have hmc : m.contents = .file data := by
      have := shape_upper hm
      rw [hd, Option.some.injEq] at this
      exact this.symm
    obtain ⟨k', hk'', hkc⟩ := hgood.2.entry
    rw [hk', Option.some.injEq] at hk''
    refine ⟨by rw [Node.isDir, Node.isDir, hmc, hk'', hkc], fun c => ?_⟩
    by_contra hsome
    obtain ⟨x, hx⟩ := Option.ne_none_iff_exists'.mp hsome
    rw [Engine.upperPath, List.append_assoc] at hx
    have hshape := shape_upper (e := e) (w := w) (r := r ++ [c]) hx
    rw [shape_beneath hs (by rw [hd]; simp) (by simp)] at hshape
    cases hshape
  · obtain ⟨-, e₁, w₁, hcar, rfl, sub, ⟨hA, hleaf⟩, hland⟩ := h
    have hm := hcar.memory
    have hgoes := goes_put hs hcar hne hleaf hland (fun c' hc' => by
      rw [hd, Option.some.injEq] at hc'
      rw [← hc']
      rfl) (fun hdir => by rw [hd, Option.some.injEq] at hdir; cases hdir) ho
    obtain ⟨k, hk', hkc⟩ := hleaf.entry
    refine ⟨hA, hgoes, k, ?_, hkc⟩
    have hpath : (e₁.forget r).upperPath r = e.upperPath r := by
      rw [hm]
      rfl
    rw [hpath, ← hk', ← hland.there, Tree.sub, List.append_nil]
  · exact h.2 (shape_dir.mpr (shape_parent hs hne (by rw [hd]; rfl)))

/-- `find_visible_entry_layer`, in an operation. -/
theorem find_ends (hs : Serves e w) (ho : Ordinary r) (hc : (e.shape w.host.tree).Clear r) {X : Errno → Engine → World → Prop} :
    (EngineM.reads (findVisibleEntryLayer r)).Ends e w
      (fun found e' w' => found = e.lookup w.host r ∧ found.map (fun f => f.2.contents) = e.shape w.host.tree r ∧ e' = e ∧ w' = w) X :=
  EngineM.ends_reads (ends_of_run (run_find w r e) ⟨rfl, lookup_shape hs ho hc, rfl, rfl⟩)

/-- `create`, `mkdir` and `symlink`. -/
theorem publishNew_goes {prepareStage : HostPath → Io Unit} {c : Contents} (hs : Serves e w) (hk : kind ≠ .rename)
    (ho : Ordinary r) (hc : (e.shape w.host.tree).Clear r) (hprep : ∀ e₁ w₁, Prepares e₁ w₁ prepareStage (fun _ => Leaf c)) :
    (publishNew kind r prepareStage).Ends e w
      (fun _ e' w' => (e.shape w.host.tree).Room r ∧ Goes e w ((e.shape w.host.tree).put r (some c)) e' w')
      (fun _ e' w' => ¬(e.shape w.host.tree).Room r ∧ Goes e w (e.shape w.host.tree) e' w') := by
  unfold publishNew
  refine EngineM.ends_bind (R := fun _ e' w' => r ≠ [] ∧ e' = e ∧ w' = w) (EngineM.ends_refuse (fun h => ⟨h, rfl, rfl⟩)
    (fun h => ⟨fun hroom => hroom.1 h, Goes.refl hs⟩)) (fun _ e₁ w₁ h₁ => ?_)
  obtain ⟨hne, rfl, rfl⟩ := h₁
  refine EngineM.ends_bind (find_ends hs ho hc) (fun found e₂ w₂ h₂ => ?_)
  obtain ⟨-, hfound, rfl, rfl⟩ := h₂
  refine EngineM.ends_bind (R := fun _ e' w' => e₂.shape w₂.host.tree r = none ∧ e' = e₂ ∧ w' = w₂)
    (EngineM.ends_refuse (fun h => ⟨?_, rfl, rfl⟩) (fun h => ⟨fun hroom => ?_, Goes.refl hs⟩)) (fun _ e₃ w₃ h₃ => ?_)
  · rw [← hfound, Option.not_isSome_iff_eq_none.mp h]
    rfl
  · rw [← Option.isSome_map (f := fun f : Layer × Node => f.2.contents), hfound, hroom.2.1] at h
    cases h
  · obtain ⟨hnone, rfl, rfl⟩ := h₃
    exact (publishAt_new hs hk ho hc hne hnone (fun e₁ w₁ => hprep e₁ w₁)).mono (fun _ _ _ h => ⟨h.1, h.2.1⟩) (fun _ _ _ h => h)

/-- `truncate`. -/
theorem truncate_goes {path : Bytes} {size : Nat} (hs : Serves e w) (ho : Ordinary (normalizeRelative path))
    (hc : (e.shape w.host.tree).Clear (normalizeRelative path))
    (hl : ∀ target, e.shape w.host.tree (normalizeRelative path) ≠ some (.symlink target)) (hsize : size < offTLimit) :
    (truncate path size).Ends e w
      (fun _ e' w' => (e.shape w.host.tree).IsFile (normalizeRelative path) ∧ Goes e w ((e.shape w.host.tree).put
        (normalizeRelative path) (some (.file (resizeBytes ((e.shape w.host.tree).bytes (normalizeRelative path)) size)))) e' w')
      (fun _ e' w' => ¬(e.shape w.host.tree).IsFile (normalizeRelative path) ∧ Goes e w (e.shape w.host.tree) e' w') := by
  unfold truncate
  refine EngineM.ends_bind (find_ends hs ho hc) (fun found e₁ w₁ h₁ => ?_)
  obtain ⟨-, hfound, rfl, rfl⟩ := h₁
  cases found with
  | none =>
    refine EngineM.ends_fail ⟨?_, Goes.refl hs⟩
    rintro ⟨data, hdata⟩
    rw [hdata] at hfound
    cases hfound
  | some found =>
    dsimp only
    rw [Option.map_some] at hfound
    refine EngineM.ends_bind (R := fun _ e' w' => found.2.isDir = false ∧ e' = e₁ ∧ w' = w₁)
      (EngineM.ends_refuse (fun h => ⟨Bool.not_eq_true _ ▸ h, rfl, rfl⟩) (fun h => ⟨?_, Goes.refl hs⟩)) (fun _ e₂ w₂ h₂ => ?_)
    · rintro ⟨data, hdata⟩
      rw [hdata, Option.some.injEq] at hfound
      rw [Node.isDir, hfound] at h
      cases h
    · obtain ⟨hdir, rfl, rfl⟩ := h₂
      cases hcon : found.2.contents with
      | dir =>
        rw [Node.isDir, hcon] at hdir
        cases hdir
      | symlink target => exact absurd (hcon ▸ hfound).symm (hl target)
      | file data =>
        rw [hcon] at hfound
        have hbytes : (e₂.shape w₂.host.tree).bytes (normalizeRelative path) = data := by
          rw [PlainTree.bytes, ← hfound]
        rw [hbytes]
        exact (publishAt_changed hs (by decide) ho hc hfound.symm (rewrites_truncate hsize data)).mono
          (fun _ _ _ h => ⟨⟨data, hfound.symm⟩, h.2.1⟩) (fun _ _ _ h => h.elim)

/-- A stage that cannot be prepared fails the operation, and the tree stays as it was. -/
theorem publishAt_unstaged {prepareStage : Engine → HostPath → Io α} (hs : Serves e w) (hk : kind ≠ .rename) (ho : Ordinary r)
    (hc : (e.shape w.host.tree).Clear r) (hne : r ≠ [])
    (hprep : ∀ e₁ id w₁ w₂, Carried e w r e₁ w₁ → Begun (e₁.forget r) id w₁ w₂ →
      Ends (prepareStage (e₁.forget r) (e₁.stagePath id)) w₂ (fun _ _ => False) (fun _ w₃ => w₃ = w₂)) :
    (publishAt kind r prepareStage).Ends e w (fun _ _ _ => False) (fun _ e' w' => Goes e w (e.shape w.host.tree) e' w') := by
  refine (publishAt_fails hs.ready hs.agrees hk ho (unbarred_of_clear hc) hprep).mono (fun _ _ _ hf => hf) (fun _ e' w' h => ?_)
  rcases h with hcar | ⟨e₁, w₁, hcar, rfl, hkept, hready⟩
  · exact goes_carried hs hcar
  · have hgoes := goes_carried hs hcar
    have hm := hcar.memory
    have hrec : e₁.recoveryDir = e.recoveryDir := by
      rw [hm]
      rfl
    have hkept' : Kept e₁ (e₁.recoveryDir <+: ·) w₁ w' := by
      rw [hrec]
      exact hkept.of_dir (by rw [hm]; rfl)
    have hnext := goes_unstaged hgoes.serves hkept' (hready.of_dirs (by rw [hm]) (by rw [hm])) hne ho
    rw [hgoes.shape] at hnext
    exact hgoes.trans hnext

theorem publishNew_fails {prepareStage : HostPath → Io Unit} (hs : Serves e w) (hk : kind ≠ .rename) (ho : Ordinary r)
    (hc : (e.shape w.host.tree).Clear r)
    (hprep : ∀ p w₂, Ends (prepareStage p) w₂ (fun _ _ => False) (fun _ w₃ => w₃ = w₂)) :
    (publishNew kind r prepareStage).Ends e w (fun _ _ _ => False) (fun _ e' w' => Goes e w (e.shape w.host.tree) e' w') := by
  unfold publishNew
  refine EngineM.ends_bind (R := fun _ e' w' => r ≠ [] ∧ e' = e ∧ w' = w) (EngineM.ends_refuse (fun h => ⟨h, rfl, rfl⟩)
    (fun _ => Goes.refl hs)) (fun _ e₁ w₁ h₁ => ?_)
  obtain ⟨hne, rfl, rfl⟩ := h₁
  refine EngineM.ends_bind (find_ends hs ho hc) (fun found e₂ w₂ h₂ => ?_)
  obtain ⟨-, -, rfl, rfl⟩ := h₂
  refine EngineM.ends_bind (R := fun _ e' w' => e' = e₂ ∧ w' = w₂) (EngineM.ends_refuse (fun _ => ⟨rfl, rfl⟩) (fun _ => Goes.refl hs))
    (fun _ e₃ w₃ h₃ => ?_)
  obtain ⟨rfl, rfl⟩ := h₃
  exact publishAt_unstaged hs hk ho hc hne (fun e₁ id _ w₂ _ _ => hprep (e₁.stagePath id) w₂)

end publications

/-! ## Removals -/

section removals

variable {e : Engine} {w : World} {r : RelPath}

/-- An entry with nothing beneath it is removed. -/
theorem remove_goes {kind : OperationKind} {directory : Bool} (hs : Serves e w) (ho : Ordinary r)
    (hc : (e.shape w.host.tree).Clear r) (hne : r ≠ []) (hleaf : directory = false → e.shape w.host.tree r ≠ some .dir)
    (hbeneath : ∀ s, s ≠ [] → e.shape w.host.tree (r ++ s) = none) :
    (removeVisibleEntryAtomically kind r directory).Ends e w
      (fun _ e' w' => Goes e w ((e.shape w.host.tree).put r none) e' w') (fun _ _ _ => False) := by
  refine (removeVisibleEntryAtomically_ends hs.ready hs.agrees ho hne (unbarred_of_clear hc) (fun hd n hn => ?_)).mono
    (fun _ e' w' h => ?_) (fun _ _ _ hf => hf)
  · have hshape := shape_upper hn
    rw [Node.isDir]
    cases hcon : n.contents with
    | dir => exact absurd (hcon ▸ hshape) (hleaf hd)
    | file data => rfl
    | symlink target => rfl
  · obtain ⟨rfl, hremoved⟩ := h
    exact goes_cut hs hne ho hremoved hbeneath

/-- `unlink`. -/
theorem unlink_goes {path : Bytes} (hs : Serves e w) (ho : Ordinary (normalizeRelative path))
    (hc : (e.shape w.host.tree).Clear (normalizeRelative path)) :
    (unlink path).Ends e w
      (fun _ e' w' => (∃ c, e.shape w.host.tree (normalizeRelative path) = some c ∧ c ≠ .dir) ∧
        Goes e w ((e.shape w.host.tree).put (normalizeRelative path) none) e' w')
      (fun _ e' w' => (¬∃ c, e.shape w.host.tree (normalizeRelative path) = some c ∧ c ≠ .dir) ∧
        Goes e w (e.shape w.host.tree) e' w') := by
  unfold unlink
  refine EngineM.ends_bind (R := fun _ e' w' => normalizeRelative path ≠ [] ∧ e' = e ∧ w' = w)
    (EngineM.ends_refuse (fun h => ⟨h, rfl, rfl⟩) (fun h => ⟨?_, Goes.refl hs⟩)) (fun _ e₁ w₁ h₁ => ?_)
  · rintro ⟨c, hcc, hcd⟩
    exact ne_root hs hcc hcd h
  obtain ⟨hne, rfl, rfl⟩ := h₁
  refine EngineM.ends_bind (find_ends hs ho hc) (fun found e₂ w₂ h₂ => ?_)
  obtain ⟨-, hfound, rfl, rfl⟩ := h₂
  cases found with
  | none =>
    refine EngineM.ends_fail ⟨?_, Goes.refl hs⟩
    rintro ⟨c, hcc, -⟩
    rw [hcc] at hfound
    cases hfound
  | some found =>
    dsimp only
    rw [Option.map_some] at hfound
    refine EngineM.ends_bind (R := fun _ e' w' => found.2.isDir = false ∧ e' = e₂ ∧ w' = w₂)
      (EngineM.ends_refuse (fun h => ⟨Bool.not_eq_true _ ▸ h, rfl, rfl⟩) (fun h => ⟨?_, Goes.refl hs⟩)) (fun _ e₃ w₃ h₃ => ?_)
    · rintro ⟨c, hcc, hcd⟩
      rw [hcc, Option.some.injEq] at hfound
      exact hcd (hfound ▸ Node.contents_of_isDir h)
    · obtain ⟨hdir, rfl, rfl⟩ := h₃
      have hnd : found.2.contents ≠ .dir := by
        intro h
        rw [Node.isDir_of_contents h] at hdir
        cases hdir
      have hsome : e₃.shape w₃.host.tree (normalizeRelative path) ≠ some .dir := by
        rw [← hfound]
        exact fun h => hnd (Option.some.inj h)
      exact (remove_goes hs ho hc hne (fun _ => hsome) (fun s hs' => shape_beneath hs hsome hs')).mono
        (fun _ _ _ h => ⟨⟨_, hfound.symm, hnd⟩, h⟩) (fun _ _ _ hf => hf.elim)

/-- The merged listing of a directory that shows. -/
theorem merged_shape (hs : Serves e w) (ho : Ordinary r) (hc : (e.shape w.host.tree).Clear r)
    (hd : e.shape w.host.tree r = some .dir) : e.Lists (e.view w.host.tree) r (merged e w.host r) := by
  obtain ⟨n, hn, hnd⟩ := shape_dir.mpr hd
  exact merged_lists (layered hs) ho (unbarred_of_clear hc) hn hnd

/-- The merged listing of a directory is empty when nothing shows in the directory. -/
theorem merged_nil_iff (hs : Serves e w) (ho : Ordinary r) (hc : (e.shape w.host.tree).Clear r)
    (hd : e.shape w.host.tree r = some .dir) : merged e w.host r = [] ↔ ∀ c, e.shape w.host.tree (r ++ [c]) = none := by
  have hlists := merged_shape hs ho hc hd
  constructor
  · intro hnil c
    have hnames := hlists.names c
    rw [hnil] at hnames
    rw [Engine.shape, Option.map_eq_none_iff, ← Option.not_isSome_iff_eq_none, ← hnames]
    simp
  · intro hall
    rw [List.eq_nil_iff_forall_not_mem]
    intro x hx
    have hsome := (hlists.names x.name).mp ⟨x, hx, rfl⟩
    have hnone := hall x.name
    rw [Engine.shape, Option.map_eq_none_iff] at hnone
    rw [hnone] at hsome
    cases hsome

/-- `rmdir`. -/
theorem rmdir_goes {path : Bytes} (hs : Serves e w) (ho : Ordinary (normalizeRelative path))
    (hc : (e.shape w.host.tree).Clear (normalizeRelative path)) :
    (rmdir path).Ends e w
      (fun _ e' w' => (e.desk w.host.tree).Accepts (.rmdir path) ∧
        Goes e w ((e.shape w.host.tree).put (normalizeRelative path) none) e' w')
      (fun _ e' w' => ¬(e.desk w.host.tree).Accepts (.rmdir path) ∧ Goes e w (e.shape w.host.tree) e' w') := by
  unfold rmdir
  refine EngineM.ends_bind (R := fun _ e' w' => normalizeRelative path ≠ [] ∧ e' = e ∧ w' = w)
    (EngineM.ends_refuse (fun h => ⟨h, rfl, rfl⟩) (fun h => ⟨fun ha => ha.1 h, Goes.refl hs⟩)) (fun _ e₁ w₁ h₁ => ?_)
  obtain ⟨hne, rfl, rfl⟩ := h₁
  refine EngineM.ends_bind (find_ends hs ho hc) (fun found e₂ w₂ h₂ => ?_)
  obtain ⟨-, hfound, rfl, rfl⟩ := h₂
  cases found with
  | none =>
    refine EngineM.ends_fail ⟨fun ha => ?_, Goes.refl hs⟩
    cases hfound.trans ha.2.1
  | some found =>
    dsimp only
    rw [Option.map_some] at hfound
    refine EngineM.ends_bind (R := fun _ e' w' => found.2.isDir = true ∧ e' = e₂ ∧ w' = w₂)
      (EngineM.ends_refuse (fun h => ⟨Bool.not_eq_false _ ▸ h, rfl, rfl⟩) (fun h => ⟨fun ha => ?_, Goes.refl hs⟩)) (fun _ e₃ w₃ h₃ => ?_)
    · rw [Node.isDir_of_contents (Option.some.inj (hfound.trans ha.2.1))] at h
      cases h
    · obtain ⟨hdir, rfl, rfl⟩ := h₃
      have hd : e₃.shape w₃.host.tree (normalizeRelative path) = some .dir := by
        rw [← hfound, Node.contents_of_isDir hdir]
      have hchild := merged_nil_iff hs ho hc hd
      refine EngineM.ends_bind (R := fun children e' w' => children = merged e₃ w₃.host (normalizeRelative path) ∧ e' = e₃ ∧ w' = w₃)
        (EngineM.ends_reads (ends_of_run (run_mergeVisible w₃ _ e₃) ⟨rfl, rfl, rfl⟩)) (fun children e₄ w₄ h₄ => ?_)
      obtain ⟨rfl, rfl, rfl⟩ := h₄
      refine EngineM.ends_bind (R := fun _ e' w' => merged e₄ w₄.host (normalizeRelative path) = [] ∧ e' = e₄ ∧ w' = w₄)
        (EngineM.ends_refuse (fun h => ⟨not_not.mp h, rfl, rfl⟩) (fun h => ⟨fun ha => h (hchild.mpr ha.2.2), Goes.refl hs⟩))
        (fun _ e₅ w₅ h₅ => ?_)
      obtain ⟨hnil, rfl, rfl⟩ := h₅
      have hall := hchild.mp hnil
      refine (remove_goes hs ho hc hne (fun h => by cases h) (fun s hs' => ?_)).mono
        (fun _ _ _ h => ⟨⟨hne, hd, hall⟩, h⟩) (fun _ _ _ hf => hf.elim)
      obtain ⟨c, s', rfl⟩ := List.exists_cons_of_ne_nil hs'
      by_cases h0 : s' = []
      · rw [h0]
        exact hall c
      · have hbeneath := shape_beneath hs (r := normalizeRelative path ++ [c]) (by rw [hall c]; simp) h0
        rwa [List.append_assoc, List.singleton_append] at hbeneath

end removals

/-! ## Queries -/

section queries

variable {e : Engine} {w : World} {path : Bytes} (hs : Serves e w) (ho : Ordinary (normalizeRelative path))
  (hc : (e.shape w.host.tree).Clear (normalizeRelative path))

include hs ho hc

/-- `getattr`. -/
theorem getattr_goes : (getattr path).Ends e w
    (fun attr e' w' => (∃ st ino fromUpper, e.shape w.host.tree (normalizeRelative path) = some st.contents ∧
      attr = attrFromStat st ino fromUpper) ∧ Goes e w (e.shape w.host.tree) e' w')
    (fun _ e' w' => e.shape w.host.tree (normalizeRelative path) = none ∧ Goes e w (e.shape w.host.tree) e' w') := by
  have hfound := lookup_shape hs ho hc
  refine EngineM.ends_reads (ends_bind (ends_of_run (run_find w _ e) (Q := fun found w' => found = e.lookup w.host _ ∧ w' = w)
    ⟨rfl, rfl⟩) (fun found w' h => ?_))
  obtain ⟨rfl, rfl⟩ := h
  cases hl : e.lookup w'.host (normalizeRelative path) with
  | none =>
    rw [hl] at hfound
    exact ends_fail ⟨hfound.symm, Goes.refl hs⟩
  | some found =>
    rw [hl] at hfound
    exact ends_pure ⟨⟨found.2, _, _, hfound.symm, rfl⟩, Goes.refl hs⟩

/-- `fsync_path`. -/
theorem fsyncPath_goes (dataOnly directory : Bool) (hl : (e.shape w.host.tree).NoLink (normalizeRelative path)) :
    (fsyncPath path dataOnly directory).Ends e w
      (fun _ e' w' => (∃ c, e.shape w.host.tree (normalizeRelative path) = some c ∧ (directory = true ↔ c = .dir)) ∧ e' = e ∧ w' = w)
      (fun _ e' w' => (¬∃ c, e.shape w.host.tree (normalizeRelative path) = some c ∧ (directory = true ↔ c = .dir)) ∧
        e' = e ∧ w' = w) := by
  have hfound := lookup_shape hs ho hc
  have hsound := fun layer n => lookup_layer (layered hs) ho (unbarred_of_clear hc) layer n
  have hwf := hs.ready.home.wf
  refine EngineM.ends_reads (ends_bind (ends_of_run (run_find w _ e) (Q := fun found w' => found = e.lookup w.host _ ∧ w' = w)
    ⟨rfl, rfl⟩) (fun found w' h => ?_))
  obtain ⟨rfl, rfl⟩ := h
  cases hlook : e.lookup w'.host (normalizeRelative path) with
  | none =>
    rw [hlook] at hfound
    refine ends_fail ⟨?_, rfl, rfl⟩
    rintro ⟨c, hc', -⟩
    cases hfound.trans hc'
  | some found =>
    obtain ⟨layer, st⟩ := found
    rw [hlook, Option.map_some] at hfound
    have hst := hsound layer st hlook
    have hsome : (w'.host.tree.get (e.layerPath layer (normalizeRelative path))).isSome = true := by
      rw [hst]
      rfl
    have hpo := hwf.ordinary _ hsome
    have hdir : st.isDir = true ↔ st.contents = .dir := ⟨Node.contents_of_isDir, Node.isDir_of_contents⟩
    dsimp only
    refine ends_bind (R := fun _ w'' => directory = st.isDir ∧ w'' = w') (ends_refuse (fun h => ⟨not_not.mp h, rfl⟩)
      (fun h => ⟨?_, rfl, rfl⟩)) (fun _ w'' h => ?_)
    · rintro ⟨c, hc', hiff⟩
      rw [← hfound, Option.some.injEq] at hc'
      rw [← hc', ← hdir] at hiff
      exact h (Bool.eq_iff_iff.mpr hiff)
    obtain ⟨rfl, rfl⟩ := h
    have hacc : ∃ c, e.shape w''.host.tree (normalizeRelative path) = some c ∧ (st.isDir = true ↔ c = .dir) :=
      ⟨st.contents, hfound.symm, hdir⟩
    refine ends_bind (R := fun _ w₁ => w₁ = w'') ?_ (fun _ w₁ h₁ => ?_)
    · unfold syncVisible
      cases hd : st.isDir with
      | true =>
        refine ends_fsyncDirectory hwf hpo ((isDirAt_iff (fun h => ?_)).mpr ⟨st, hst, hd⟩)
        rw [h, hwf.get_nil] at hst
        cases hst
      | false =>
        have hlink : st.isLnk = false := by
          cases hcon : st.contents with
          | symlink target => exact absurd (hfound.symm.trans (congrArg some hcon)) (hl target)
          | file data => rw [Node.isLnk, hcon]
          | dir => rw [Node.isLnk, hcon]
        refine (ends_quiet (a := ()) rfl ?_).mono (fun _ _ h => h.2) (fun _ _ h => h)
        change (w''.host.fsyncFile _).1 = .ok ()
        rw [Host.fsyncFile, atNode_some hwf hst (fun _ => hlink)]
    · subst h₁
      refine ends_onlyIf (fun _ => ends_orFail (X := fun _ _ => False) ((ends_fsyncDirectory hwf
        (hpo.of_initial (List.dropLast_prefix _)) (hwf.isDirAt_parent hsome)).mono (fun _ _ h => ⟨hacc, rfl, h⟩) (fun _ _ h => h))
          (fun _ _ h => h.elim)) (fun _ => ⟨hacc, rfl, rfl⟩)

/-- `readlink`. -/
theorem readlink_goes : (readlink path).Ends e w
    (fun target e' w' => e.shape w.host.tree (normalizeRelative path) = some (.symlink target) ∧ Goes e w (e.shape w.host.tree) e' w')
    (fun _ e' w' => (∀ target, e.shape w.host.tree (normalizeRelative path) ≠ some (.symlink target)) ∧
      Goes e w (e.shape w.host.tree) e' w') := by
  have hfound := lookup_shape hs ho hc
  have hsound := fun layer n => lookup_layer (layered hs) ho (unbarred_of_clear hc) layer n
  refine EngineM.ends_reads (ends_bind (ends_of_run (run_find w _ e) (Q := fun found w' => found = e.lookup w.host _ ∧ w' = w)
    ⟨rfl, rfl⟩) (fun found w' h => ?_))
  obtain ⟨rfl, rfl⟩ := h
  cases hl : e.lookup w'.host (normalizeRelative path) with
  | none =>
    rw [hl] at hfound
    refine ends_fail ⟨fun target ht => ?_, Goes.refl hs⟩
    cases hfound.trans ht
  | some found =>
    obtain ⟨layer, st⟩ := found
    rw [hl] at hfound
    have hst := hsound layer st hl
    refine ends_bind (R := fun _ w'' => st.isLnk = true ∧ w'' = w')
      (ends_refuse (fun h => ⟨Bool.not_eq_false _ ▸ h, rfl⟩) (fun h => ⟨fun target ht => ?_, Goes.refl hs⟩)) (fun _ w'' h => ?_)
    · have hcon : st.contents = .symlink target := Option.some.inj (hfound.trans ht)
      rw [Node.isLnk, hcon] at h
      cases h
    obtain ⟨hlnk, rfl⟩ := h
    cases hcon : st.contents with
    | file data =>
      rw [Node.isLnk, hcon] at hlnk
      cases hlnk
    | dir =>
      rw [Node.isLnk, hcon] at hlnk
      cases hlnk
    | symlink target =>
      have hread : (exec (.readSymlink (e.layerPath layer (normalizeRelative path))) w'').1 = .ok target := by
        change (w''.host.readSymlink _).1 = _
        rw [Host.readSymlink, atNode_some hs.ready.home.wf hst (fun hf => by cases hf), hcon]
      refine ends_orFail (X := fun _ _ => False) ((ends_quiet rfl hread).mono (fun data w₁ h => ?_) (fun _ _ hx => hx))
        (fun _ _ hx => hx.elim)
      obtain ⟨rfl, rfl⟩ := h
      refine ⟨?_, Goes.refl hs⟩
      rw [← hfound, Option.map_some, hcon]

/-- `readdir`, from memory or computed. -/
theorem readdir_goes : (readdir path).Ends e w
    (fun entries e' w' => e.shape w.host.tree (normalizeRelative path) = some .dir ∧
      e.Lists (e.view w.host.tree) (normalizeRelative path) entries ∧ Goes e w (e.shape w.host.tree) e' w')
    (fun _ e' w' => e.shape w.host.tree (normalizeRelative path) ≠ some .dir ∧ Goes e w (e.shape w.host.tree) e' w') := by
  unfold readdir EngineM.Ends
  dsimp only
  cases hcached : e.directoryEntriesCache.find? (fun cached => cached.1 = normalizeRelative path) with
  | some cached =>
    obtain ⟨-, hd, hl⟩ := hs.current cached (List.mem_of_find?_eq_some hcached)
    have hpath : cached.1 = normalizeRelative path := by simpa using List.find?_some hcached
    rw [hpath] at hd hl
    exact ⟨shape_dir.mp hd, hl, Goes.refl hs⟩
  | none =>
    change EngineM.Ends (do
      let out ← EngineM.reads (computeDirectoryEntries (normalizeRelative path))
      EngineM.modify (fun e => { e with directoryEntriesCache := e.directoryEntriesCache ++ [(normalizeRelative path, out)] })
      return out) e w (fun entries e' w' => e.shape w.host.tree (normalizeRelative path) = some .dir ∧
        e.Lists (e.view w.host.tree) (normalizeRelative path) entries ∧ Goes e w (e.shape w.host.tree) e' w')
      (fun _ e' w' => e.shape w.host.tree (normalizeRelative path) ≠ some .dir ∧ Goes e w (e.shape w.host.tree) e' w')
    refine EngineM.ends_bind (R := fun out e' w' => e.shape w.host.tree (normalizeRelative path) = some .dir ∧
      out = merged e w.host (normalizeRelative path) ∧ e' = e ∧ w' = w) (EngineM.ends_reads (ends_of_run (run_compute w _ e) ?_))
      (fun out e₁ w₁ h => ?_)
    · have hfound := lookup_shape hs ho hc
      cases hl : e.lookup w.host (normalizeRelative path) with
      | none =>
        rw [hl] at hfound
        refine ⟨fun hd => ?_, Goes.refl hs⟩
        cases hfound.trans hd
      | some found =>
        obtain ⟨layer, st⟩ := found
        rw [hl] at hfound
        dsimp only
        by_cases hd : st.isDir = false
        · rw [if_pos hd]
          refine ⟨fun hdir => ?_, Goes.refl hs⟩
          have hcon : st.contents = .dir := Option.some.inj (hfound.trans hdir)
          rw [Node.isDir_of_contents hcon] at hd
          cases hd
        · rw [if_neg hd]
          rw [Bool.not_eq_false] at hd
          refine ⟨?_, rfl, rfl, rfl⟩
          rw [← hfound, Option.map_some, Node.contents_of_isDir hd]
    · obtain ⟨hd, rfl, rfl, rfl⟩ := h
      have hl := merged_shape hs ho hc hd
      exact EngineM.ends_bind (R := fun _ e' w' => Goes e₁ w₁ (e₁.shape w₁.host.tree) e' w')
        (EngineM.ends_modify (goes_cached hs ho (shape_dir.mpr hd) hl)) (fun _ e' w' h => EngineM.ends_pure ⟨hd, hl, h⟩)

end queries

end CopyOnWriteAux

end TribiosVfs

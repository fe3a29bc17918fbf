import TribiosVfs.Lemmas.Extends

/-!
# configure after failed attempts

An attempt that fails leaves its part of the Base directory behind, and without a database the next attempt captures into it.
-/

namespace TribiosVfs

/-- One attempt: the Project tree as it then is, and the steps around the capture that fail. -/
structure ConfigureAttempt where
  tree : ProjectTree
  faults : ConfigureFaults

/-- `configure` without `--force`. -/
def ConfigureAttempt.run (a : ConfigureAttempt) (tribiosDir : HostPath) (c : ConfigureState) :
    Except ConfigureError CaptureStats × ConfigureState := configure a.tree tribiosDir false a.faults c

/-- What a sequence of attempts leaves. -/
def configureAll (tribiosDir : HostPath) : List ConfigureAttempt → ConfigureState → ConfigureState
  | [], c => c
  | a :: attempts, c => configureAll tribiosDir attempts (a.run tribiosDir c).2

/-- The directories of a Project, the Base directory among them. -/
def projectDirectories (tribiosDir : HostPath) : List HostPath :=
  [tribiosDir, tribiosDir ++ [workspacesName], tribiosDir ++ [stagingName], tribiosDir ++ [mntName], tribiosDir ++ [baseName]]

/-- Where the directories of a Project are to be, no symlink and no file is in the way. -/
structure Layout (tribiosDir : HostPath) (h : Host) : Prop where
  sound : h.Sound
  site : ∀ d ∈ projectDirectories tribiosDir, Site h d

namespace ConfigureAux

variable {tribiosDir : HostPath} {h h' : Host}

/-! ## The directories -/

theorem isDirAt_extends (hx : h.Extends h') {p : HostPath} (hp : isDirAt h.tree p = true) : isDirAt h'.tree p = true := by
  by_cases h0 : p = []
  · rw [h0, isDirAt_nil]
  · obtain ⟨n, hn, hd⟩ := (isDirAt_iff h0).mp hp
    obtain ⟨n', hn', hd', -⟩ := hx.keeps p n hn
    exact (isDirAt_iff h0).mpr ⟨n', hn', hd'.trans hd⟩

theorem site_of_isDirAt (hw : h.tree.WF) {p : HostPath} (ho : Ordinary p) (hp : isDirAt h.tree p = true) : Site h p := by
  refine ⟨ho, fun a ha n hn => ?_⟩
  have ha0 : a ≠ [] := by
    rintro rfl
    rw [hw.get_nil] at hn
    cases hn
  obtain ⟨m, hm, hd⟩ := (isDirAt_iff ha0).mp (hw.isDirAt_initial hp ha)
  rw [hn, Option.some.injEq] at hm
  exact hm ▸ hd

theorem createProjectDirectories_extends (limits : Limits) {ds : List HostPath} (hds : ∀ d ∈ ds, Ordinary d) :
    ∀ {h : Host}, h.Sound → h.Extends (createProjectDirectories limits h ds).2 := by
  induction ds with
  | nil => exact fun hs => hs.extends
  | cons d ds ih =>
    intro h hs
    have hx := createDirectoriesWithin_adds limits (hds d List.mem_cons_self) ⟨h, {}⟩ hs
    rw [createProjectDirectories]
    cases hr : createDirectoriesWithin limits d ⟨h, {}⟩ with
    | mk r s =>
      rw [hr] at hx
      cases r with
      | ok u => exact hx.trans (ih (fun e he => hds e (List.mem_cons_of_mem _ he)) hx.sound)
      | error e => cases e <;> exact hx

/-- Where nothing is in the way, the directories are made as far as no path is too long, and nothing else changes. -/
theorem createProjectDirectories_made (limits : Limits) {ds : List HostPath} : ∀ {h : Host}, h.tree.WF → (∀ d ∈ ds, Site h d) →
    ∃ r h', createProjectDirectories limits h ds = (r, h') ∧ (r = .ok () → ∀ d ∈ ds, isDirAt h'.tree d = true) ∧
      (∀ q, isDirAt h.tree q = true → isDirAt h'.tree q = true) ∧
      (∀ q, (∀ d ∈ ds, ¬q <+: d) → h'.tree.get q = h.tree.get q) ∧ (∀ q, Site h q → Site h' q) := by
  induction ds with
  | nil => exact fun {h} _ _ => ⟨.ok (), h, rfl, fun _ _ hd => (nomatch hd), fun _ => id, fun _ _ => rfl, fun _ => id⟩
  | cons d ds ih =>
    intro h hw hs
    by_cases ht : limits.takes d = true
    · obtain ⟨h₁, hok, hp⟩ := createBaseDirectories_paved {} hw (hs d List.mem_cons_self)
      obtain ⟨r, h₂, hrest, hmade, hdirs, hoff, hsite⟩ := ih hp.wf (fun e he => hp.site e (hs e (List.mem_cons_of_mem _ he)))
      refine ⟨r, h₂, ?_, fun hr e he => ?_, fun q hq => hdirs q (hp.dirs q hq), fun q hq => ?_, fun q hq => hsite q (hp.site q hq)⟩
      · rw [createProjectDirectories]
        simp only [createDirectoriesWithin, ht, if_true, hok]
        exact hrest
      · rcases List.mem_cons.mp he with rfl | he
        · exact hdirs e hp.dir
        · exact hmade hr e he
      · rw [hoff q (fun e he => hq e (List.mem_cons_of_mem _ he))]
        exact hp.off q (hq d List.mem_cons_self)
    · -- a path that is too long is refused before anything is made
      rw [Bool.not_eq_true] at ht
      refine ⟨.error (.cannotCreate d .ENAMETOOLONG), h, ?_, fun hr => (nomatch hr), fun _ => id, fun _ _ => rfl, fun _ => id⟩
      rw [createProjectDirectories]
      simp only [createDirectoriesWithin, ht, Bool.false_eq_true, if_false]

/-- A capture leaves the Base directory a directory, when one can be made there. -/
theorem captureBaseState_site {tree : ProjectTree} (hw : tree.WF) {base : HostPath} {policy : CapturePolicy} (hs : h.Sound)
    (hb : Site h base) : Site (captureBaseState tree base policy h).2.host base := by
  let walk : CaptureWalk := ⟨tree, some base, policy⟩
  have hbase : ∀ b, walk.base = some b → Ordinary b := by
    intro b he
    cases he
    exact hb.ordinary
  have hrest := (@writeCompiledPolicy_adds walk hbase).andThen (@captureDirectory_adds walk hw hbase tree.fuel [] tree.root)
  unfold captureBaseState walkProject
  split
  · exact hb
  · obtain ⟨h', hok, hp⟩ := createBaseDirectories_paved {} hs.wf hb
    have hsound := (@createBase_adds walk hbase ⟨h, {}⟩ hs).sound
    unfold createBase createDirectoriesWithin at hsound ⊢
    dsimp only [walk] at hsound ⊢
    by_cases ht : tree.limits.takes base = true
    · rw [if_pos ht, hok] at hsound ⊢
      have hx := hrest ⟨h', {}⟩ hsound
      exact site_of_isDirAt hx.sound.wf hb.ordinary (isDirAt_extends hx hp.dir)
    · rw [if_neg ht]
      exact hb

/-! ## One attempt -/

theorem finishConfigure_host (f : ConfigureFaults) (stats : CaptureStats) (h : Host) :
    (finishConfigure f stats h).2.host = h := by
  unfold finishConfigure
  repeat' split
  all_goals rfl

theorem captureAndFinish_host (tree : ProjectTree) (policy : CapturePolicy) (f : ConfigureFaults) (h : Host) :
    (captureAndFinish tree tribiosDir policy f h).2.host =
      (captureBaseState tree (tribiosDir ++ [baseName]) policy h).2.host := by
  unfold captureAndFinish
  cases hc : captureBaseState tree (tribiosDir ++ [baseName]) policy h with
  | mk r s =>
    cases r with
    | error e => rfl
    | ok u => exact finishConfigure_host f s.stats s.host

/-- An attempt leaves the host as it was, or makes the directories and may capture into the Base directory. -/
theorem run_cases (a : ConfigureAttempt) (c : ConfigureState) :
    ((a.run tribiosDir c).2.host = c.host ∧ ∀ stats, (a.run tribiosDir c).1 ≠ .ok stats) ∨
    ∃ policy r h', CapturePolicy.loadFromProject a.tree = .ok policy ∧
      createProjectDirectories a.tree.limits c.host [tribiosDir, tribiosDir ++ [workspacesName], tribiosDir ++ [stagingName],
        tribiosDir ++ [mntName]] = (r, h') ∧
      ((((a.run tribiosDir c).2.host = h' ∧ ∀ stats, (a.run tribiosDir c).1 ≠ .ok stats)) ∨
        (r = .ok () ∧ a.run tribiosDir c = captureAndFinish a.tree tribiosDir policy a.faults h')) := by
  unfold ConfigureAttempt.run configure
  split
  · exact Or.inl ⟨rfl, fun _ => by simp⟩
  split
  · exact Or.inl ⟨rfl, fun _ => by simp⟩
  split
  · exact Or.inl ⟨rfl, fun _ => by simp⟩
  cases hp : CapturePolicy.loadFromProject a.tree with
  | error e => exact Or.inl ⟨rfl, fun _ => by simp⟩
  | ok policy =>
    dsimp only
    simp only [Bool.false_eq_true, if_false]
    cases hd : createProjectDirectories a.tree.limits c.host [tribiosDir, tribiosDir ++ [workspacesName], tribiosDir ++ [stagingName],
        tribiosDir ++ [mntName]] with
    | mk r h' =>
      refine Or.inr ⟨policy, r, h', rfl, rfl, ?_⟩
      cases r with
      | error e => exact Or.inl ⟨rfl, fun _ => by simp⟩
      | ok u =>
        dsimp only
        split
        · exact Or.inl ⟨rfl, fun _ => by simp⟩
        · exact Or.inr ⟨rfl, rfl⟩

theorem ordinary_layout (hl : Layout tribiosDir h) {d : HostPath} (hd : d ∈ projectDirectories tribiosDir) : Ordinary d :=
  (hl.site d hd).ordinary

theorem mem_projectDirectories {d : HostPath}
    (hd : d ∈ [tribiosDir, tribiosDir ++ [workspacesName], tribiosDir ++ [stagingName], tribiosDir ++ [mntName]]) :
    d ∈ projectDirectories tribiosDir := by
  unfold projectDirectories
  simp only [List.mem_cons, List.not_mem_nil, or_false] at hd ⊢
  rcases hd with h | h | h | h <;> simp [h]

theorem base_mem : tribiosDir ++ [baseName] ∈ projectDirectories tribiosDir := by simp [projectDirectories]

/-- An attempt keeps every entry, and the directories of the Project where they can be made. -/
theorem run_layout (a : ConfigureAttempt) (hw : a.tree.WF) {c : ConfigureState} (hl : Layout tribiosDir c.host) :
    c.host.Extends (a.run tribiosDir c).2.host ∧ Layout tribiosDir (a.run tribiosDir c).2.host := by
  rcases @run_cases tribiosDir a c with ⟨hh, -⟩ | ⟨policy, r, h', -, hd, hcase⟩
  · rw [hh]
    exact ⟨hl.sound.extends, hl⟩
  · have hx : c.host.Extends h' := by
      have := createProjectDirectories_extends a.tree.limits (fun d hd => ordinary_layout hl (mem_projectDirectories hd)) hl.sound
      rwa [hd] at this
    obtain ⟨r', h'', hok, hmade, -, -, hsite⟩ := createProjectDirectories_made a.tree.limits hl.sound.wf
      (fun d hd => hl.site d (mem_projectDirectories hd))
    rw [hd, Prod.mk.injEq] at hok
    obtain ⟨rfl, rfl⟩ := hok
    rcases hcase with ⟨hh, -⟩ | ⟨hr, hrun⟩
    · rw [hh]
      exact ⟨hx, hx.sound, fun d hd => hsite d (hl.site d hd)⟩
    · rw [hrun, captureAndFinish_host]
      have hbase : Site h' (tribiosDir ++ [baseName]) := hsite _ (hl.site _ base_mem)
      have hcap : h'.Extends (captureBaseState a.tree (tribiosDir ++ [baseName]) policy h').2.host :=
        @walkProject_extends ⟨a.tree, some (tribiosDir ++ [baseName]), policy⟩ hw
          (fun base hb => by cases hb; exact hbase.ordinary) h' hx.sound
      refine ⟨hx.trans hcap, hcap.sound, fun d hd => ?_⟩
      simp only [projectDirectories, List.mem_cons, List.not_mem_nil, or_false] at hd
      have hkept : ∀ e ∈ [tribiosDir, tribiosDir ++ [workspacesName], tribiosDir ++ [stagingName], tribiosDir ++ [mntName]],
          Site (captureBaseState a.tree (tribiosDir ++ [baseName]) policy h').2.host e := fun e he =>
        site_of_isDirAt hcap.sound.wf (ordinary_layout hl (mem_projectDirectories he)) (isDirAt_extends hcap (hmade hr e he))
      rcases hd with rfl | rfl | rfl | rfl | rfl
      · exact hkept _ (by simp)
      · exact hkept _ (by simp)
      · exact hkept _ (by simp)
      · exact hkept _ (by simp)
      · exact captureBaseState_site hw hx.sound hbase

theorem configureAll_layout {attempts : List ConfigureAttempt} (hw : ∀ a ∈ attempts, a.tree.WF) :
    ∀ {c : ConfigureState}, Layout tribiosDir c.host → Layout tribiosDir (configureAll tribiosDir attempts c).host := by
  induction attempts with
  | nil => exact fun hl => hl
  | cons a attempts ih =>
    intro c hl
    exact ih (fun b hb => hw b (List.mem_cons_of_mem _ hb)) (run_layout a (hw a List.mem_cons_self) hl).2

/-- Making the directories of the Project changes nothing beneath the Base directory. -/
theorem not_on_the_way {q : RelPath} (h0 : q ≠ []) :
    ∀ d ∈ [tribiosDir, tribiosDir ++ [workspacesName], tribiosDir ++ [stagingName], tribiosDir ++ [mntName]],
      ¬(tribiosDir ++ [baseName]) ++ q <+: d := by
  intro d hd hp
  have hlen := hp.length_le
  have hq : 0 < q.length := List.length_pos_of_ne_nil h0
  simp only [List.mem_cons, List.not_mem_nil, or_false] at hd
  rcases hd with rfl | rfl | rfl | rfl <;> simp only [List.length_append, List.length_singleton] at hlen <;> omega

/-- The last attempt, when it succeeds. -/
theorem run_ok {a : ConfigureAttempt} (hw : a.tree.WF) {c c' : ConfigureState} (hl : Layout tribiosDir c.host)
    {policy : CapturePolicy} (hload : CapturePolicy.loadFromProject a.tree = .ok policy) {stats : CaptureStats}
    (hok : a.run tribiosDir c = (.ok stats, c')) :
    (∀ q, q ≠ [] → baseImage c'.host (tribiosDir ++ [baseName]) q = image a.tree policy q) ↔
      ∀ q, q ≠ [] → ∀ x, baseImage c.host (tribiosDir ++ [baseName]) q = some x → Fits x (image a.tree policy q) := by
  have hext := (run_layout a hw hl).1
  rw [hok] at hext
  constructor
  · intro himage q h0 x hx
    obtain ⟨n, hn, rfl⟩ := Option.map_eq_some_iff.mp hx
    obtain ⟨n', hn', -, hlink⟩ := hext.keeps _ n hn
    refine ⟨n'.image, ?_, hlink⟩
    rw [← himage q h0, baseImage, hn']
    rfl
  · intro hfits
    rcases @run_cases tribiosDir a c with ⟨-, hne⟩ | ⟨policy', r, h', hload', hd, hcase⟩
    · exact absurd (congrArg Prod.fst hok) (hne stats)
    · rw [hload, Except.ok.injEq] at hload'
      subst hload'
      rcases hcase with ⟨-, hne⟩ | ⟨-, hrun⟩
      · exact absurd (congrArg Prod.fst hok) (hne stats)
      · obtain ⟨r', h'', hok', -, -, hoff, hsite⟩ := createProjectDirectories_made a.tree.limits hl.sound.wf
          (fun d hd => hl.site d (mem_projectDirectories hd))
        have hx := createProjectDirectories_extends a.tree.limits (fun d hd => ordinary_layout hl (mem_projectDirectories hd)) hl.sound
        rw [hd] at hok' hx
        rw [Prod.mk.injEq] at hok'
        obtain ⟨-, rfl⟩ := hok'
        rw [hrun] at hok
        have hhost : (captureBaseState a.tree (tribiosDir ++ [baseName]) policy h').2.host = c'.host := by
          rw [← captureAndFinish_host a.tree policy a.faults h', hok]
        cases hc : captureBaseState a.tree (tribiosDir ++ [baseName]) policy h' with
        | mk r s =>
          rw [hc] at hhost
          unfold captureAndFinish at hok
          rw [hc] at hok
          cases r with
          | error e => cases hok
          | ok u =>
            rw [← hhost]
            refine captureBaseState_image hw hx.sound.wf (hsite _ (hl.site _ base_mem)) hc (fun q h0 x hq => hfits q h0 x ?_)
            rwa [baseImage, hoff _ (not_on_the_way h0)] at hq

end ConfigureAux

/-- After any sequence of attempts, the Base tree of an attempt that succeeds is what its policy and the fixed rules select exactly
when everything the sequence left in the Base directory is selected too, and no symlink but where it is to be one. -/
theorem configure_independent (tribiosDir : HostPath) (start : ConfigureState) (hstart : Layout tribiosDir start.host)
    (attempts : List ConfigureAttempt) (hw : ∀ a ∈ attempts, a.tree.WF) (last : ConfigureAttempt) (hlast : last.tree.WF)
    (policy : CapturePolicy) (hload : CapturePolicy.loadFromProject last.tree = .ok policy) (stats : CaptureStats)
    (c : ConfigureState) (hok : last.run tribiosDir (configureAll tribiosDir attempts start) = (.ok stats, c)) :
    (∀ q, q ≠ [] → baseImage c.host (tribiosDir ++ [baseName]) q = image last.tree policy q) ↔
      ∀ q, q ≠ [] → ∀ x, baseImage (configureAll tribiosDir attempts start).host (tribiosDir ++ [baseName]) q = some x →
        Fits x (image last.tree policy q) :=
  ConfigureAux.run_ok hlast (ConfigureAux.configureAll_layout hw hstart) hload hok

/-! ## What an attempt leaves behind -/

namespace ConfigureWitness

/-- A Project directory `/p`. -/
def start : ConfigureState :=
  ⟨{ tree := ⟨[([[112]], ⟨.dir, ⟨1, 493, 0, 0, 0⟩⟩)]⟩, nextIno := 3, now := 0, umask := 18 }, false⟩

def tribiosDir : HostPath := [[112], kTribiosDirName]

def root : SourceNode := { kind := .dir, device := 1, perm := 493 }

def git : RelPath × SourceNode := ([kGitDirName], { kind := .dir, device := 1, perm := 493 })

/-- A Project `/p` with a file `s`, a directory `u`, and the file `q`, and what is under the name of the policy file. -/
def project (s : Bytes) (u : SourceNode) (policyFile : List (RelPath × SourceNode)) : ProjectTree where
  entries := ⟨[git, ([[115]], { kind := .file s, device := 1, perm := 420 }), ([[117]], u),
    ([[113]], { kind := .file [9], device := 1, perm := 420 })] ++ policyFile⟩
  root := root
  path := [[112]]

/-- The directory `u` may not be read. -/
def first : ConfigureAttempt :=
  ⟨project [1] { kind := .dir, device := 1, perm := 0, readable := false, searchable := false } [], {}⟩

def policyFile (source : Bytes) : RelPath × SourceNode :=
  ([kCapturePolicyFileName], { kind := .file source, device := 1, perm := 420 })

/-- The directory may be read, and a policy `s` leaves the file out. -/
def second : ConfigureAttempt :=
  ⟨project [1] { kind := .dir, device := 1, perm := 493 } [policyFile [115, 10]], {}⟩

def policy : CapturePolicy :=
  { present := true, sourceMode := 420, source := [115, 10], patterns := [{ text := [115], line := 1, glob := [115] }] }

/-- The directory may be read, `s` holds other bytes, and a policy `q` leaves another file out. -/
def retried : ConfigureAttempt :=
  ⟨project [2] { kind := .dir, device := 1, perm := 493 } [policyFile [113, 10]], {}⟩

def retriedPolicy : CapturePolicy :=
  { present := true, sourceMode := 420, source := [113, 10], patterns := [{ text := [113], line := 1, glob := [113] }] }

theorem first_wf : first.tree.WF := ProjectTree.wf_of_entries (by decide) (by decide) (by simp [first, project, git])

theorem second_wf : second.tree.WF :=
  ProjectTree.wf_of_entries (by decide) (by decide) (by simp [second, project, policyFile, git])

theorem retried_wf : retried.tree.WF :=
  ProjectTree.wf_of_entries (by decide) (by decide) (by simp [retried, project, policyFile, git])

theorem start_layout : Layout tribiosDir start.host where
  sound := by
    refine ⟨Tree.wf_of_entries (by decide), fun q n t hn ht => ?_⟩
    have hmem := PathMap.mem_entries_of_get hn
    simp only [start, List.mem_singleton, Prod.mk.injEq] at hmem
    rw [hmem.2] at ht
    cases ht
  site d hd := by
    refine ⟨?_, fun a _ n hn => ?_⟩
    · revert d
      decide
    · have hmem := PathMap.mem_entries_of_get hn
      simp only [start, List.mem_singleton, Prod.mk.injEq] at hmem
      rw [hmem.2]
      rfl

/-- The first attempt captures `s` and fails at `u`; the second succeeds, leaves `s` out, and `s` is in the Base tree. -/
theorem excluded_survives :
    Layout tribiosDir start.host ∧ first.tree.WF ∧ second.tree.WF ∧
      (first.run tribiosDir start).1.toOption = none ∧ (first.run tribiosDir start).2.database = false ∧
      ((second.run tribiosDir (configureAll tribiosDir [first] start)).1.toOption).isSome = true ∧
      CapturePolicy.loadFromProject second.tree = .ok policy ∧
      (policy.decide [[115]] false).excluded = true ∧ image second.tree policy [[115]] = none ∧
      baseImage (second.run tribiosDir (configureAll tribiosDir [first] start)).2.host (tribiosDir ++ [baseName]) [[115]] ≠ none :=
  ⟨start_layout, first_wf, second_wf, by decide +kernel, by decide +kernel, by decide +kernel, by decide +kernel,
    by decide +kernel, by decide +kernel, by decide +kernel⟩

/-- What the first attempt leaves is no symlink, and the retried attempt selects it too. -/
theorem left_fits : ∀ q, q ≠ [] → ∀ x,
    baseImage (configureAll tribiosDir [first] start).host (tribiosDir ++ [baseName]) q = some x →
    Fits x (image retried.tree retriedPolicy q) := by
  intro q h0 x hx
  obtain ⟨n, hn, rfl⟩ := Option.map_eq_some_iff.mp hx
  have hall : ∀ e ∈ (configureAll tribiosDir [first] start).host.tree.entries,
      (tribiosDir ++ [baseName]).isPrefixOf e.1 = true → e.1 ≠ tribiosDir ++ [baseName] →
        e.2.isLnk = false ∧ (image retried.tree retriedPolicy (e.1.drop 3)).isSome = true := by decide +kernel
  obtain ⟨hl, hi⟩ := hall _ (PathMap.mem_entries_of_get hn)
    (List.isPrefixOf_iff_prefix.mpr (List.prefix_append _ _)) (by simpa using h0)
  obtain ⟨z, hz⟩ := Option.isSome_iff_exists.mp hi
  refine ⟨z, hz, fun t ht => ?_⟩
  rw [Node.isLnk, show n.contents = .symlink t from ht] at hl
  cases hl

/-- The retried attempt captures its own `s` over the one the first attempt left, and the Base tree is what it selects. -/
theorem retried_after_first :
    (first.run tribiosDir start).1.toOption = none ∧
      ∀ q, q ≠ [] → baseImage (retried.run tribiosDir (configureAll tribiosDir [first] start)).2.host (tribiosDir ++ [baseName]) q =
        image retried.tree retriedPolicy q :=
  ⟨by decide +kernel, (configure_independent tribiosDir start start_layout [first]
    (fun a ha => List.mem_singleton.mp ha ▸ first_wf) retried retried_wf retriedPolicy (by decide +kernel)
    ((retried.run tribiosDir (configureAll tribiosDir [first] start)).1.toOption.getD {})
    (retried.run tribiosDir (configureAll tribiosDir [first] start)).2 (Prod.ext (by decide +kernel) rfl)).mpr left_fits⟩

end ConfigureWitness

end TribiosVfs

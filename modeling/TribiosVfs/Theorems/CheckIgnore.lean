import TribiosVfs.Lemmas.Capture

/-!
# check-ignore and the capture

`explainCaptureDecision` says of a path whether the capture leaves it out. It asks the policy where `lstat` fails, and the capture
passes over an entry where `lstat` fails: the two differ on what lies in a directory that can be listed and not searched, and on an
entry whose path is too long.
-/

namespace TribiosVfs

/-- The path names an entry, or lies beneath a symlink. -/
def ProjectTree.Names (tree : ProjectTree) (p : RelPath) : Prop :=
  (tree.entries.get p).isSome ∨ ∃ a n, a <+: p ∧ a ≠ p ∧ tree.entries.get a = some n ∧ n.isLnk = true

/-- A path is one that a call takes, and every directory above it may be searched. -/
def Reachable (tree : ProjectTree) (p : RelPath) : Prop :=
  (tree.takes p = true ∧ tree.root.searchable = true) ∧
    ∀ a n, a <+: p → a ≠ p → tree.entries.get a = some n → n.isDir = true → n.searchable = true

/-- An ancestor that the policy excludes, or that is seen to be a symlink or a nested mount. -/
def AncestorExcludes (tree : ProjectTree) (policy : CapturePolicy) (a : RelPath) : Prop :=
  (policy.decide a true).excluded = true ∨ ∃ n, tree.lstat a = some n ∧ (n.isLnk = true ∨ n.device ≠ tree.root.device)

/-- Excluded whatever is found at the path: metadata, a path beneath an excluded ancestor, or one that the policy excludes as it
is spelled. -/
def ExcludedUnseen (tree : ProjectTree) (policy : CapturePolicy) (p : RelPath) (spelledAsDirectory : Bool) : Prop :=
  (p.head? = some kGitDirName ∨ p.head? = some kTribiosDirName) ∨
    (∃ a, a <+: p ∧ a ≠ [] ∧ a ≠ p ∧ AncestorExcludes tree policy a) ∨ (policy.decide p spelledAsDirectory).excluded = true

namespace IgnoreAux

variable {tree : ProjectTree} {policy : CapturePolicy} {p a : RelPath}

/-! ## What an explanation says -/

/-- Of an ancestor there is something to say exactly when it excludes, and then it is that the path is excluded. -/
theorem explainAncestor_cases (a : RelPath) :
    (explainAncestor tree policy a = none ∧ ¬AncestorExcludes tree policy a) ∨
      ∃ e, explainAncestor tree policy a = some e ∧ e.excluded = true ∧ AncestorExcludes tree policy a := by
  unfold explainAncestor AncestorExcludes
  cases tree.lstat a with
  | none => by_cases hx : (policy.decide a true).excluded = true <;> simp [hx]
  | some n =>
    by_cases hl : n.isLnk = true
    · simp [hl]
    · by_cases hd : n.device = tree.root.device <;> by_cases hx : (policy.decide a true).excluded = true <;> simp [hl, hd, hx]

theorem mem_properAncestors : a ∈ properAncestors p ↔ a <+: p ∧ a ≠ [] ∧ a ≠ p := by
  simp [properAncestors, List.mem_inits]

/-- What is said of the ancestors. -/
theorem findSome_cases (p : RelPath) :
    ((properAncestors p).findSome? (explainAncestor tree policy) = none ∧
      ∀ a, a <+: p → a ≠ [] → a ≠ p → ¬AncestorExcludes tree policy a) ∨
    ∃ e a, (properAncestors p).findSome? (explainAncestor tree policy) = some e ∧ e.excluded = true ∧
      a <+: p ∧ a ≠ [] ∧ a ≠ p ∧ AncestorExcludes tree policy a := by
  cases hf : (properAncestors p).findSome? (explainAncestor tree policy) with
  | none =>
    refine Or.inl ⟨rfl, fun a ha h0 hne => ?_⟩
    have hnone := List.findSome?_eq_none_iff.mp hf a (mem_properAncestors.mpr ⟨ha, h0, hne⟩)
    rcases @explainAncestor_cases tree policy a with ⟨-, hx⟩ | ⟨e, he, -⟩
    · exact hx
    · rw [he] at hnone
      cases hnone
  | some e =>
    obtain ⟨a, ha, he⟩ := List.exists_of_findSome?_eq_some hf
    obtain ⟨hap, h0, hne⟩ := mem_properAncestors.mp ha
    rcases @explainAncestor_cases tree policy a with ⟨hn, -⟩ | ⟨e', he', hx, hex⟩
    · rw [hn] at he
      cases he
    · rw [he, Option.some.injEq] at he'
      exact Or.inr ⟨e, a, rfl, he' ▸ hx, hap, h0, hne, hex⟩

/-- What is said of an entry that is seen. -/
theorem explainEntry_seen {n : SourceNode} {spelled : Bool} (hn : tree.lstat p = some n) :
    (explainEntry tree policy p spelled).excluded = true ↔ admits tree policy p = false := by
  unfold explainEntry admits
  rw [hn]
  by_cases hd : n.device = tree.root.device <;> cases hc : n.isCapturable <;> simp [hd, hc]

theorem explainEntry_unseen {spelled : Bool} (hn : tree.lstat p = none) :
    (explainEntry tree policy p spelled).excluded = (policy.decide p spelled).excluded := by
  unfold explainEntry
  rw [hn]

/-! ## What the capture makes -/

theorem SourceNode.not_isLnk {n : SourceNode} (h : n.isDir = true) : n.isLnk = false := by
  unfold SourceNode.isDir at h
  unfold SourceNode.isLnk
  cases hk : n.kind <;> simp [hk] at h ⊢

/-- What lies above a reachable path is reachable. -/
theorem reachable_initial (hr : Reachable tree p) (ha : a <+: p) : Reachable tree a := by
  refine ⟨⟨takes_initial hr.1.1 ha, hr.1.2⟩, fun b k hb hbe => hr.2 b k (hb.trans ha) (fun e => hbe ?_)⟩
  subst e
  exact hb.eq_of_length_le ha.length_le

/-- An entry is seen when it is reachable. -/
theorem lstat_of_reachable (hw : tree.WF) (hr : Reachable tree p) {n : SourceNode} (hn : tree.entries.get p = some n) :
    tree.lstat p = some n := by
  refine lstat_eq_some.mpr ⟨hr.1, fun a ha h0 hne => ?_, hn⟩
  obtain ⟨m, hm, hd⟩ := hw.rooted.ancestor (by rw [hn]; rfl) ha hne h0
  exact ⟨m, hm, hr.2 a m ha hne hm hd⟩

/-- Nothing is seen that is not reachable, nor beneath a symlink. -/
theorem lstat_of_unreachable (hw : tree.WF) (hr : ¬Reachable tree p) : tree.lstat p = none := by
  rw [Option.eq_none_iff_forall_not_mem]
  intro n hn
  obtain ⟨hroot, hs, hget⟩ := lstat_eq_some.mp hn
  refine hr ⟨hroot, fun a m ha hne hm _ => ?_⟩
  have h0 : a ≠ [] := by
    rintro rfl
    rw [hw.rooted.root] at hm
    cases hm
  obtain ⟨m', hm', hs'⟩ := hs a ha h0 hne
  rw [hm, Option.some.injEq] at hm'
  exact hm' ▸ hs'

/-- Beneath an ancestor that excludes nothing is selected. -/
theorem not_selected_of_ancestor (hw : tree.WF) (ha : a <+: p) (h0 : a ≠ []) (hne : a ≠ p)
    (hx : AncestorExcludes tree policy a) : selected tree policy p = false := by
  rw [Bool.eq_false_iff]
  intro hs
  obtain ⟨n, hn, hdev, -, hdec⟩ := admits_iff.mp ((selected_iff.mp hs).2.2 a ha h0)
  obtain ⟨m, -, hm⟩ := selected_get hs
  obtain ⟨d, hd, hdir⟩ := hw.rooted.ancestor (by rw [hm]; rfl) ha hne h0
  have hnd : n = d := Option.some.inj ((lstat_get hn).symm.trans hd)
  rw [← hnd] at hdir
  rcases hx with hx | ⟨n', hn', hx⟩
  · rw [hdir, hx] at hdec
    cases hdec
  · rw [hn, Option.some.injEq] at hn'
    subst hn'
    rcases hx with hx | hx
    · rw [SourceNode.not_isLnk hdir] at hx
      cases hx
    · exact hx hdev

/-- A reachable entry beneath no ancestor that excludes is selected exactly when it is admitted. -/
theorem selected_of_reachable (hw : tree.WF) (hr : Reachable tree p) {n : SourceNode} (hn : tree.entries.get p = some n)
    (h0 : p ≠ []) (hres : isReserved [] (p.head?.getD []) = false)
    (hx : ∀ a, a <+: p → a ≠ [] → a ≠ p → ¬AncestorExcludes tree policy a) :
    selected tree policy p = admits tree policy p := by
  rw [Bool.eq_iff_iff, selected_iff]
  refine ⟨fun h => h.2.2 p (List.prefix_refl p) h0, fun h => ⟨h0, hres, fun a ha ha0 => ?_⟩⟩
  by_cases hne : a = p
  · exact hne ▸ h
  · obtain ⟨m, hm, hd⟩ := hw.rooted.ancestor (by rw [hn]; rfl) ha hne ha0
    have hseen := lstat_of_reachable hw (reachable_initial hr ha) hm
    have hnot := hx a ha ha0 hne
    simp only [AncestorExcludes, not_or, not_exists, not_and, Bool.not_eq_true] at hnot
    refine admits_iff.mpr ⟨m, hseen, not_not.mp (hnot.2 m hseen).2, ?_, ?_⟩
    · unfold SourceNode.isDir at hd
      unfold SourceNode.isCapturable
      cases hk : m.kind <;> simp [hk] at hd ⊢
    · rw [hd]
      exact hnot.1

/-- Only the root is above the policy file. -/
theorem eq_root_of_above (ha : a <+: [kCapturePolicyFileName]) (hne : a ≠ [kCapturePolicyFileName]) : a = [] := by
  cases a with
  | nil => rfl
  | cons n a =>
    obtain ⟨rfl, hnil⟩ := List.cons_prefix_cons.mp ha
    rw [List.prefix_nil.mp hnil] at hne
    exact absurd rfl hne

/-- An entry that is no metadata and not the policy file is not reserved. -/
theorem not_reserved (hfile : ∀ n, tree.entries.get [kCapturePolicyFileName] = some n → n.isDir = false) (hw : tree.WF)
    (hmeta : ¬(p.head? = some kGitDirName ∨ p.head? = some kTribiosDirName)) (hp : p ≠ [kCapturePolicyFileName]) {n : SourceNode}
    (hn : tree.entries.get p = some n) : isReserved [] (p.head?.getD []) = false := by
  cases p with
  | nil =>
    rw [hw.rooted.root] at hn
    cases hn
  | cons c p =>
    have hc : c ≠ kCapturePolicyFileName := by
      rintro rfl
      obtain ⟨d, hd, hdir⟩ := hw.rooted.ancestor (by rw [hn]; rfl) (p := [kCapturePolicyFileName])
        (List.cons_prefix_cons.mpr ⟨rfl, List.nil_prefix⟩) (Ne.symm hp) (by simp)
      rw [hfile d hd] at hdir
      cases hdir
    simp only [List.head?_cons, Option.some.injEq, not_or] at hmeta
    simp [isReserved, hmeta.1, hmeta.2, hc]

/-- The explanation of a path against the image of the capture. -/
theorem explain_image (hw : tree.WF) (hload : CapturePolicy.loadFromProject tree = .ok policy) {text : Bytes}
    (hp : normalizeRelative text = p) (h0 : p ≠ []) (hnames : tree.Names p) :
    ∃ e, explainCaptureDecision tree policy text = some e ∧ ((e.excluded = true ↔ image tree policy p = none) ↔
      Reachable tree p ∨ ExcludedUnseen tree policy p (text.getLast? = some slash)) := by
  obtain ⟨hroot, hfile⟩ := loadFromProject_ok hload
  unfold explainCaptureDecision ExcludedUnseen
  simp only [hp, h0, if_false]
  by_cases hmeta : p.head? = some kGitDirName ∨ p.head? = some kTribiosDirName
  · -- metadata
    rw [if_pos hmeta]
    have hsel : selected tree policy p = false := by
      rw [Bool.eq_false_iff]
      intro hs
      have hres := (selected_iff.mp hs).2.1
      rcases hmeta with hm | hm <;> simp [isReserved, hm] at hres
    have hnone : image tree policy p = none := image_eq_none hsel (fun _ he => by rw [he] at hmeta; revert hmeta; decide)
    exact ⟨_, rfl, by simp [hnone, hmeta]⟩
  rw [if_neg hmeta]
  by_cases hpf : p = [kCapturePolicyFileName]
  · -- the policy file
    rw [if_pos hpf]
    have hreach : Reachable tree p := by
      refine ⟨hpf ▸ hroot, fun a n ha hne hn _ => ?_⟩
      rw [hpf] at ha hne
      rw [eq_root_of_above ha hne, hw.rooted.root] at hn
      cases hn
    have hpr : policy.present = true := by
      rcases hnames with hs | ⟨a, n, ha, hne, hn, -⟩
      · obtain ⟨n, hn⟩ := Option.isSome_iff_exists.mp hs
        exact (hfile n (hpf ▸ hn)).2.2
      · rw [hpf] at ha hne
        rw [eq_root_of_above ha hne, hw.rooted.root] at hn
        cases hn
    have hsome : image tree policy p ≠ none := by
      rw [image, if_pos ⟨hpr, hpf⟩]
      simp
    exact ⟨_, rfl, by simp [hsome, hreach]⟩
  rw [if_neg hpf, if_neg (by rw [takes_initial hroot.1 List.nil_prefix]; simp)]
  rcases @findSome_cases tree policy p with ⟨hf, hx⟩ | ⟨e, a, hf, he, ha, ha0, hane, hx⟩
  · -- no ancestor decides
    have hnone : ¬∃ a, a <+: p ∧ a ≠ [] ∧ a ≠ p ∧ AncestorExcludes tree policy a := by
      rintro ⟨a, ha, ha0, hane, h⟩
      exact hx a ha ha0 hane h
    rw [hf]
    refine ⟨_, rfl, ?_⟩
    simp only [hmeta, hnone, false_or]
    by_cases hr : Reachable tree p
    · -- the entry is seen, and selected when it is admitted
      have hentry : ∃ n, tree.entries.get p = some n := by
        rcases hnames with hs | ⟨s, n, hs, hne, hn, hl⟩
        · exact Option.isSome_iff_exists.mp hs
        · have hs0 : s ≠ [] := by
            rintro rfl
            rw [hw.rooted.root] at hn
            cases hn
          exact absurd (Or.inr ⟨n, lstat_of_reachable hw (reachable_initial hr hs) hn, Or.inl hl⟩) (hx s hs hs0 hne)
      obtain ⟨n, hn⟩ := hentry
      have hsel := @selected_of_reachable tree policy p hw hr n hn h0
        (not_reserved (fun n hn => (hfile n hn).1) hw hmeta hpf hn) hx
      have himage : image tree policy p = none ↔ selected tree policy p = false := by
        constructor
        · intro hi
          by_contra hs
          rw [image_of_selected (by simpa using hs) hn] at hi
          cases hi
        · exact fun hs => image_eq_none hs (fun _ => hpf)
      rw [explainEntry_seen (lstat_of_reachable hw hr hn), himage, hsel]
      simp [hr]
    · -- the entry is not seen
      have hlstat := lstat_of_unreachable hw hr
      have hsel : selected tree policy p = false := by
        rw [Bool.eq_false_iff]
        intro hs
        obtain ⟨n, hn, -⟩ := selected_get hs
        rw [hlstat] at hn
        cases hn
      rw [explainEntry_unseen hlstat, image_eq_none hsel (fun _ => hpf)]
      simp [hr]
  · -- an ancestor decides
    rw [hf]
    have hsel := @not_selected_of_ancestor tree policy p a hw ha ha0 hane hx
    refine ⟨e, rfl, ?_⟩
    rw [image_eq_none hsel (fun _ => hpf)]
    have hex : ∃ a, a <+: p ∧ a ≠ [] ∧ a ≠ p ∧ AncestorExcludes tree policy a := ⟨a, ha, ha0, hane, hx⟩
    simp [he, hex]

end IgnoreAux

open IgnoreAux in
/-- Of a path that names an entry or lies beneath a symlink, the explanation and the captured Base tree agree exactly when the path is
not too long and every directory above it may be searched, or it is excluded whatever is found there. -/
theorem check_ignore_agrees (tree : ProjectTree) (hw : tree.WF) (policy : CapturePolicy)
    (hload : CapturePolicy.loadFromProject tree = .ok policy) (h : Host) (hwf : h.tree.WF) (base : HostPath)
    (hbase : isDirAt h.tree base = true) (hord : Ordinary base) (hempty : ∀ q, q ≠ [] → h.tree.get (base ++ q) = none)
    (s : CaptureState) (hok : captureBaseState tree base policy h = (.ok (), s)) (text : Bytes)
    (h0 : normalizeRelative text ≠ []) (hnames : tree.Names (normalizeRelative text)) :
    ∃ e, explainCaptureDecision tree policy text = some e ∧
      ((e.excluded = true ↔ s.host.tree.get (base ++ normalizeRelative text) = none) ↔
        Reachable tree (normalizeRelative text) ∨
          ExcludedUnseen tree policy (normalizeRelative text) (text.getLast? = some slash)) := by
  have hsite : Site h base := by
    refine ⟨hord, fun a ha n hn => ?_⟩
    have ha0 : a ≠ [] := by
      rintro rfl
      rw [hwf.get_nil] at hn
      cases hn
    obtain ⟨m, hm, hd⟩ := (isDirAt_iff ha0).mp (hwf.isDirAt_initial hbase ha)
    rw [hn, Option.some.injEq] at hm
    exact hm ▸ hd
  have himage := captureBaseState_image hw hwf hsite hok
    (fun q hq x hx => by rw [baseImage, hempty q hq] at hx; cases hx) (normalizeRelative text) h0
  have hget : s.host.tree.get (base ++ normalizeRelative text) = none ↔ image tree policy (normalizeRelative text) = none := by
    rw [← himage, baseImage, Option.map_eq_none_iff]
  rw [hget]
  exact explain_image hw hload rfl h0 hnames

/-! ## A directory that can be listed and not searched -/

namespace IgnoreWitness

def host : Host := { tree := ⟨[([[98]], ⟨.dir, ⟨1, 493, 0, 0, 0⟩⟩)]⟩, nextIno := 3, now := 0, umask := 18 }

def root : SourceNode := { kind := .dir, device := 1, perm := 493 }

/-- A directory `d` with permissions 0444, and a file `x` in it. -/
def tree : ProjectTree :=
  { entries := ⟨[([[100]], { kind := .dir, device := 1, perm := 292, searchable := false }),
      ([[100], [120]], { kind := .file [1], device := 1, perm := 420 })]⟩
    root := root
    path := [[112]] }

theorem tree_wf : tree.WF := ProjectTree.wf_of_entries (by decide) (by decide) (by simp [tree])

theorem host_wf : host.tree.WF := Tree.wf_of_entries (by decide)

theorem host_empty : ∀ q, q ≠ [] → host.tree.get ([[98]] ++ q) = none := by
  intro q hq
  simp [host, PathMap.get, PathMap.lookupIn, Ne.symm hq]

/-- The capture passes over `d/x`, and the explanation says that it is captured. -/
theorem unsearchable_disagrees :
    tree.WF ∧ CapturePolicy.loadFromProject tree = .ok {} ∧ host.tree.WF ∧ isDirAt host.tree [[98]] = true ∧
      (∀ q, q ≠ [] → host.tree.get ([[98]] ++ q) = none) ∧ (captureBaseState tree [[98]] {} host).1 = .ok () ∧
      tree.Names (normalizeRelative [100, 47, 120]) ∧
      (explainCaptureDecision tree {} [100, 47, 120]).map (·.excluded) = some false ∧
      (captureBaseState tree [[98]] {} host).2.host.tree.get ([[98]] ++ normalizeRelative [100, 47, 120]) = none :=
  ⟨tree_wf, rfl, host_wf, by decide, host_empty, by decide +kernel, Or.inl (by decide +kernel), by decide +kernel,
    by decide +kernel⟩

/-- A policy `x`, a file `x` and a file `y`. -/
def ignoring : ProjectTree :=
  { entries := ⟨[([kCapturePolicyFileName], { kind := .file [120, 10], device := 1, perm := 420 }),
      ([[120]], { kind := .file [1], device := 1, perm := 420 }), ([[121]], { kind := .file [2], device := 1, perm := 420 })]⟩
    root := root
    path := [[112]] }

def policy : CapturePolicy :=
  { present := true, sourceMode := 420, source := [120, 10], patterns := [{ text := [120], line := 1, glob := [120] }] }

theorem ignoring_wf : ignoring.WF := ProjectTree.wf_of_entries (by decide) (by decide) (by simp [ignoring])

/-- `./x` is explained and captured alike. -/
theorem ignored_agrees : ∃ e, explainCaptureDecision ignoring policy [46, 47, 120] = some e ∧
    ((e.excluded = true ↔ (captureBaseState ignoring [[98]] policy host).2.host.tree.get [[98], [120]] = none) ↔
      Reachable ignoring [[120]] ∨ ExcludedUnseen ignoring policy [[120]] false) :=
  check_ignore_agrees ignoring ignoring_wf policy (by decide +kernel) host host_wf [[98]] (by decide) (by decide) host_empty
    (captureBaseState ignoring [[98]] policy host).2 (Prod.ext (by decide +kernel) rfl) [46, 47, 120] (by decide)
    (Or.inl (by decide))

end IgnoreWitness

end TribiosVfs

import TribiosVfs.BaseCapture
import TribiosVfs.Lemmas.HostSpecs

/-!
# What a capture selects

Which entries of the Project the walk reaches, which of them a pattern bars, and which it therefore captures; and what one round of
the loop over a directory comes to for each of the three (`captureEntry_cases`).
-/

namespace TribiosVfs

/-- A Project tree as a file system holds it. -/
structure ProjectTree.WF (tree : ProjectTree) : Prop where
  rooted : tree.entries.Rooted SourceNode.isDir
  ordinary : ∀ p, (tree.entries.get p).isSome → Ordinary p
  target : ∀ p n t, tree.entries.get p = some n → n.kind = .symlink t → t ≠ [] ∧ cStr t = t

/-- A tree whose entries, one by one, have names and lie under directories, and whose symlinks have targets. -/
theorem ProjectTree.wf_of_entries {tree : ProjectTree}
    (h : ∀ e ∈ tree.entries.entries, e.1 ≠ [] ∧ (e.1.dropLast = [] ∨ (tree.entries.get e.1.dropLast).any SourceNode.isDir = true))
    (ho : ∀ e ∈ tree.entries.entries, Ordinary e.1)
    (ht : ∀ e ∈ tree.entries.entries, ∀ t, e.2.kind = .symlink t → t ≠ [] ∧ cStr t = t) : tree.WF where
  rooted := PathMap.rooted_of_entries h
  ordinary p hp := by
    obtain ⟨n, hn⟩ := Option.isSome_iff_exists.mp hp
    exact ho _ (PathMap.mem_entries_of_get hn)
  target p n t hn hk := ht _ (PathMap.mem_entries_of_get hn) t hk

/-- The entry is on the Project's device, of a type the capture takes, and not excluded by the policy. -/
def admits (tree : ProjectTree) (policy : CapturePolicy) (p : RelPath) : Bool :=
  match tree.lstat p with
  | none => false
  | some n => decide (n.device = tree.root.device) && n.isCapturable && !(policy.decide p n.isDir).excluded

/-- The path and all its ancestors are admitted, and the first segment is not reserved. -/
def selected (tree : ProjectTree) (policy : CapturePolicy) (p : RelPath) : Bool :=
  p ≠ [] && !isReserved [] (p.head?.getD []) && p.inits.all (fun a => a = [] || admits tree policy a)

/-! ## Selection -/

section selection

variable {tree : ProjectTree} {policy : CapturePolicy} {p q : RelPath} {n : SourceNode}

/-- The path of an entry is shorter than those of the entries beneath it. -/
theorem Limits.takes_initial {limits : Limits} {p q : List Name} (h : limits.takes q = true) (hpq : p <+: q) :
    limits.takes p = true := by
  obtain ⟨s, rfl⟩ := hpq
  rw [Limits.takes, decide_eq_true_eq, pathText, List.length_cons] at h ⊢
  have hlength : (RelPath.text p).length ≤ (RelPath.text (p ++ s)).length := by
    by_cases hp : p = []
    · simp [hp, RelPath.text]
    · by_cases hs : s = []
      · simp [hs]
      · rw [text_append hp hs, List.length_append]
        omega
  omega

theorem takes_initial (h : tree.takes q = true) (hpq : p <+: q) : tree.takes p = true :=
  Limits.takes_initial h ((List.prefix_append_right_inj _).mpr hpq)

theorem lstat_eq_some : tree.lstat p = some n ↔ (tree.takes p = true ∧ tree.root.searchable = true) ∧
    (∀ a, a <+: p → a ≠ [] → a ≠ p → ∃ m, tree.entries.get a = some m ∧ m.searchable = true) ∧ tree.entries.get p = some n := by
  unfold ProjectTree.lstat
  rw [Option.ite_none_right_eq_some, Bool.and_eq_true, Bool.and_eq_true, List.all_eq_true]
  constructor
  · rintro ⟨⟨hr, ha⟩, hn⟩
    refine ⟨hr, fun a hap h0 hne => ?_, hn⟩
    have := ha a (List.mem_inits a p |>.mpr hap)
    simp only [h0, decide_false, hne, Bool.false_or] at this
    cases hg : tree.entries.get a with
    | none => simp [hg] at this
    | some m => exact ⟨m, rfl, by simpa [hg] using this⟩
  · rintro ⟨hr, ha, hn⟩
    refine ⟨⟨hr, fun a hap => ?_⟩, hn⟩
    have hap' := List.mem_inits a p |>.mp hap
    by_cases h0 : a = []
    · simp [h0]
    · by_cases hne : a = p
      · simp [hne]
      · obtain ⟨m, hm, hs⟩ := ha a hap' h0 hne
        simp [hm, hs]

theorem lstat_get (h : tree.lstat p = some n) : tree.entries.get p = some n := (lstat_eq_some.mp h).2.2

theorem admits_iff : admits tree policy p = true ↔ ∃ n, tree.lstat p = some n ∧ n.device = tree.root.device ∧
    n.isCapturable = true ∧ (policy.decide p n.isDir).excluded = false := by
  unfold admits
  cases tree.lstat p with
  | none => simp
  | some n => simp [and_assoc]

theorem selected_iff : selected tree policy p = true ↔
    p ≠ [] ∧ isReserved [] (p.head?.getD []) = false ∧ ∀ a, a <+: p → a ≠ [] → admits tree policy a = true := by
  unfold selected
  rw [Bool.and_eq_true, Bool.and_eq_true, List.all_eq_true]
  constructor
  · rintro ⟨⟨h0, hr⟩, ha⟩
    refine ⟨by simpa using h0, by simpa using hr, fun a hap hne => ?_⟩
    simpa [hne] using ha a (List.mem_inits a p |>.mpr hap)
  · rintro ⟨h0, hr, ha⟩
    refine ⟨⟨by simpa using h0, by simpa using hr⟩, fun a hap => ?_⟩
    by_cases hne : a = []
    · simp [hne]
    · simpa [hne] using ha a (List.mem_inits a p |>.mp hap) hne

theorem head_of_initial {a p : RelPath} (h : a <+: p) (hne : a ≠ []) : a.head? = p.head? := by
  obtain ⟨s, rfl⟩ := h
  cases a with
  | nil => exact absurd rfl hne
  | cons x a => rfl

/-- Every ancestor of a selected path is selected. -/
theorem selected_initial (h : selected tree policy q = true) (hpq : p <+: q) (hne : p ≠ []) : selected tree policy p = true := by
  rw [selected_iff] at h ⊢
  exact ⟨hne, by rw [head_of_initial hpq hne]; exact h.2.1, fun a hap => h.2.2 a (hap.trans hpq)⟩

theorem selected_get (h : selected tree policy p = true) : ∃ n, tree.lstat p = some n ∧ tree.entries.get p = some n := by
  rw [selected_iff] at h
  obtain ⟨n, hn, -⟩ := admits_iff.mp (h.2.2 p (List.prefix_refl p) h.1)
  exact ⟨n, hn, lstat_get hn⟩

theorem not_selected_policyFile : selected tree policy (kCapturePolicyFileName :: p) = false := by
  rw [Bool.eq_false_iff]
  intro h
  rw [selected_iff] at h
  simp [isReserved] at h

/-- A policy that loads: the policy file can be looked for, and it is a file when there is one. -/
theorem loadFromProject_ok (h : CapturePolicy.loadFromProject tree = .ok policy) :
    (tree.takes [kCapturePolicyFileName] = true ∧ tree.root.searchable = true) ∧ ∀ n, tree.entries.get [kCapturePolicyFileName] = some n → n.isDir = false ∧ n.isLnk = false ∧ policy.present = true := by
  unfold CapturePolicy.loadFromProject at h
  split at h
  · cases h
  · rename_i hs
    refine ⟨by simpa using hs, fun n hn => ?_⟩
    rw [hn] at h
    dsimp only at h
    cases hk : n.kind with
    | file source =>
      rw [hk] at h
      dsimp only at h
      split at h
      · unfold CapturePolicy.compile at h
        split at h
        · cases h
        · split at h
          · cases h
          · cases hc : compileLines 1 (policyLines source) with
            | error e =>
              rw [hc] at h
              cases h
            | ok patterns =>
              rw [hc] at h
              cases h
              exact ⟨by rw [SourceNode.isDir, hk], by rw [SourceNode.isLnk, hk], rfl⟩
      · cases h
    | dir => rw [hk] at h; cases h
    | symlink t => rw [hk] at h; cases h
    | special => rw [hk] at h; cases h

end selection

/-! ## The last matching pattern -/

/-- The pattern matches the entry. -/
def CapturePattern.fits (relative : RelPath) (isDirectory : Bool) (pattern : CapturePattern) : Bool :=
  !(pattern.directoryOnly && !isDirectory) &&
    matchCaptureGlob pattern.glob (if pattern.anchored then relative.text else finalSegment relative)

/-- The last pattern of the policy that matches the entry. -/
def CapturePolicy.lastMatch (policy : CapturePolicy) (relative : RelPath) (isDirectory : Bool) : Option CapturePattern :=
  (policy.patterns.filter (CapturePattern.fits relative isDirectory)).getLast?

/-- The loop of `decide` ends with the last pattern that matches; the induction is on the patterns, from the last one. -/
theorem decide_eq_lastMatch (policy : CapturePolicy) (relative : RelPath) (isDirectory : Bool) :
    policy.decide relative isDirectory = match policy.lastMatch relative isDirectory with
      | none => {}
      | some pattern => ⟨!pattern.negated, some pattern⟩ := by
  unfold CapturePolicy.decide CapturePolicy.lastMatch
  induction policy.patterns using List.reverseRecOn with
  | nil => rfl
  | append_singleton patterns pattern ih =>
    rw [List.foldl_append, List.foldl_cons, List.foldl_nil, List.filter_append, CapturePattern.apply, ih]
    by_cases hdir : (pattern.directoryOnly && !isDirectory) = true
    · simp [CapturePattern.fits, hdir]
    · by_cases hmatch :
          matchCaptureGlob pattern.glob (if pattern.anchored then relative.text else finalSegment relative) = true
      · have hfits : CapturePattern.fits relative isDirectory pattern = true := by
          rw [CapturePattern.fits, hmatch, Bool.and_true, Bool.not_eq_true']
          exact Bool.eq_false_iff.mpr hdir
        rw [if_neg hdir, if_pos hmatch, List.filter_cons_of_pos hfits]
        simp
      · have hfits : CapturePattern.fits relative isDirectory pattern ≠ true := by
          simp [CapturePattern.fits, hmatch]
        rw [if_neg hdir, if_neg hmatch, List.filter_cons_of_neg hfits, List.filter_nil, List.append_nil]

/-! ## Reached entries -/

/-- A regular file, directory or symlink on the Project's device, found by `lstat`. -/
def found (tree : ProjectTree) (p : RelPath) : Bool :=
  match tree.lstat p with
  | none => false
  | some n => decide (n.device = tree.root.device) && n.isCapturable

/-- The path and all its ancestors are found, and the first segment is not reserved. -/
def reached (tree : ProjectTree) (p : RelPath) : Bool :=
  p ≠ [] && !isReserved [] (p.head?.getD []) && p.inits.all (fun a => a = [] || found tree a)

/-- The policy's last matching pattern excludes the entry. -/
def excludes (tree : ProjectTree) (policy : CapturePolicy) (p : RelPath) : Bool :=
  match tree.entries.get p with
  | none => false
  | some n => (policy.lastMatch p n.isDir).any (fun pattern => !pattern.negated)

/-- The policy excludes the entry, or one above it. -/
def barred (tree : ProjectTree) (policy : CapturePolicy) (p : RelPath) : Bool :=
  p.inits.any (fun a => a ≠ [] && excludes tree policy a)

/-- The policy excludes the entry, and none above it. -/
def bars (tree : ProjectTree) (policy : CapturePolicy) (p : RelPath) : Bool :=
  p ≠ [] && excludes tree policy p && !barred tree policy p.dropLast

section reached

variable {tree : ProjectTree} {policy : CapturePolicy} {p q : RelPath}

theorem excludes_of_get {n : SourceNode} (hn : tree.entries.get p = some n) :
    excludes tree policy p = (policy.decide p n.isDir).excluded := by
  rw [excludes, hn, decide_eq_lastMatch]
  dsimp only
  cases policy.lastMatch p n.isDir <;> rfl

theorem found_iff : found tree p = true ↔ ∃ n, tree.lstat p = some n ∧ n.device = tree.root.device ∧ n.isCapturable = true := by
  unfold found
  cases tree.lstat p with
  | none => simp
  | some n => simp

theorem reached_iff : reached tree p = true ↔
    p ≠ [] ∧ isReserved [] (p.head?.getD []) = false ∧ ∀ a, a <+: p → a ≠ [] → found tree a = true := by
  unfold reached
  rw [Bool.and_eq_true, Bool.and_eq_true, List.all_eq_true]
  constructor
  · rintro ⟨⟨h0, hr⟩, ha⟩
    refine ⟨by simpa using h0, by simpa using hr, fun a hap hne => ?_⟩
    simpa [hne] using ha a (List.mem_inits a p |>.mpr hap)
  · rintro ⟨h0, hr, ha⟩
    refine ⟨⟨by simpa using h0, by simpa using hr⟩, fun a hap => ?_⟩
    by_cases hne : a = []
    · simp [hne]
    · simpa [hne] using ha a (List.mem_inits a p |>.mp hap) hne

theorem barred_iff : barred tree policy p = true ↔ ∃ a, a <+: p ∧ a ≠ [] ∧ excludes tree policy a = true := by
  simp [barred, List.mem_inits]

theorem barred_initial (h : barred tree policy p = true) (hpq : p <+: q) : barred tree policy q = true := by
  obtain ⟨a, ha, h0, he⟩ := barred_iff.mp h
  exact barred_iff.mpr ⟨a, ha.trans hpq, h0, he⟩

theorem not_barred_nil : barred tree policy [] = false := rfl

theorem barred_concat (n : Name) : barred tree policy (p ++ [n]) = true ↔
    barred tree policy p = true ∨ excludes tree policy (p ++ [n]) = true := by
  constructor
  · intro h
    obtain ⟨a, ha, h0, he⟩ := barred_iff.mp h
    rcases List.prefix_concat_iff.mp ha with rfl | ha
    · exact Or.inr he
    · exact Or.inl (barred_iff.mpr ⟨a, ha, h0, he⟩)
  · rintro (h | h)
    · exact barred_initial h (List.prefix_append _ _)
    · exact barred_iff.mpr ⟨p ++ [n], List.prefix_refl _, by simp, h⟩

/-- An entry is barred by itself when it is barred and what is above it is not. -/
theorem bars_eq (h0 : p ≠ []) : bars tree policy p = (barred tree policy p && !barred tree policy p.dropLast) := by
  have hconcat := @barred_concat tree policy p.dropLast (p.getLast h0)
  rw [List.dropLast_concat_getLast] at hconcat
  unfold bars
  cases hd : barred tree policy p.dropLast with
  | true => simp
  | false =>
    rw [hd] at hconcat
    simp only [Bool.false_eq_true, false_or] at hconcat
    rw [Bool.eq_iff_iff.mpr hconcat]
    simp [h0]

theorem barred_of_bars (h : bars tree policy p = true) : barred tree policy p = true := by
  have h0 : p ≠ [] := by
    rintro rfl
    cases h
  rw [bars_eq h0, Bool.and_eq_true] at h
  exact h.1

theorem reached_initial (h : reached tree q = true) (hpq : p <+: q) (hne : p ≠ []) : reached tree p = true := by
  rw [reached_iff] at h ⊢
  exact ⟨hne, by rw [head_of_initial hpq hne]; exact h.2.1, fun a hap => h.2.2 a (hap.trans hpq)⟩

theorem reached_lstat (h : reached tree p = true) : ∃ n, tree.lstat p = some n ∧ tree.entries.get p = some n ∧
    n.device = tree.root.device ∧ n.isCapturable = true := by
  rw [reached_iff] at h
  obtain ⟨n, hn, hd, hc⟩ := found_iff.mp (h.2.2 p (List.prefix_refl p) h.1)
  exact ⟨n, hn, lstat_get hn, hd, hc⟩

/-- What is admitted is found and not excluded. -/
theorem admits_eq : admits tree policy p = (found tree p && !excludes tree policy p) := by
  unfold admits found
  cases hl : tree.lstat p with
  | none => rfl
  | some n => rw [excludes_of_get (lstat_get hl)]

/-- What is selected is reached, and neither it nor anything above it is excluded. -/
theorem selected_eq : selected tree policy p = (reached tree p && !barred tree policy p) := by
  have hbarred : barred tree policy p = false ↔ ¬∃ a, a <+: p ∧ a ≠ [] ∧ excludes tree policy a = true := by
    rw [← barred_iff, Bool.not_eq_true]
  rw [Bool.eq_iff_iff, Bool.and_eq_true, Bool.not_eq_true', selected_iff, reached_iff, hbarred]
  simp only [admits_eq, Bool.and_eq_true, Bool.not_eq_true']
  constructor
  · rintro ⟨h0, hr, ha⟩
    refine ⟨⟨h0, hr, fun a hap hne => (ha a hap hne).1⟩, ?_⟩
    rintro ⟨a, hap, hne, he⟩
    rw [(ha a hap hne).2] at he
    cases he
  · rintro ⟨⟨h0, hr, ha⟩, hn⟩
    refine ⟨h0, hr, fun a hap hne => ⟨ha a hap hne, ?_⟩⟩
    rw [Bool.eq_false_iff]
    exact fun he => hn ⟨a, hap, hne, he⟩

end reached

/-! ## The directory a walk stands in -/

section stands

variable {tree : ProjectTree} {policy : CapturePolicy} {p q : RelPath}

/-- The directory a walk stands in: the root, or a selected directory. -/
def Opened (tree : ProjectTree) (policy : CapturePolicy) (relative : RelPath) (dir : SourceNode) : Prop :=
  (relative = [] ∧ dir = tree.root) ∨
    (selected tree policy relative = true ∧ tree.lstat relative = some dir)

/-- The directory a recursion stands in: the root, or an entry that is reached. -/
def Stands (tree : ProjectTree) (p : RelPath) (dir : SourceNode) : Prop :=
  (p = [] ∧ dir = tree.root) ∨ (reached tree p = true ∧ tree.lstat p = some dir)

theorem Opened.stands {dir : SourceNode} (h : Opened tree policy p dir) : Stands tree p dir := by
  rcases h with h | ⟨hs, hl⟩
  · exact Or.inl h
  · rw [selected_eq, Bool.and_eq_true] at hs
    exact Or.inr ⟨hs.1, hl⟩

/-- Nothing bars the directory a walk stands in. -/
theorem Opened.not_barred {dir : SourceNode} (h : Opened tree policy p dir) : barred tree policy p = false := by
  rcases h with ⟨rfl, -⟩ | ⟨hsel, -⟩
  · exact not_barred_nil
  · rw [selected_eq, Bool.and_eq_true, Bool.not_eq_true'] at hsel
    exact hsel.2

/-- What `lstat` finds of a child of the directory a recursion stands in. -/
theorem Stands.lstat_child {dir : SourceNode} (h : Stands tree p dir) (name : Name) :
    tree.lstat (p ++ [name]) = tree.lstatIn dir (p ++ [name]) := by
  have hinitial : ∀ a : RelPath, a <+: p ++ [name] → a ≠ p ++ [name] → a <+: p := by
    intro a ha hne
    exact (List.prefix_concat_iff.mp ha).resolve_left hne
  ext m
  rw [ProjectTree.lstatIn, Option.ite_none_right_eq_some, Bool.and_eq_true, lstat_eq_some]
  rcases h with ⟨rfl, rfl⟩ | ⟨hreached, hdir⟩
  · constructor
    · rintro ⟨⟨ht, hr⟩, -, hn⟩
      exact ⟨⟨hr, ht⟩, hn⟩
    · rintro ⟨⟨hr, ht⟩, hn⟩
      exact ⟨⟨ht, hr⟩, fun a ha h0 hne => absurd (List.prefix_nil.mp (hinitial a ha hne)) h0, hn⟩
  · have h0 : p ≠ [] := (reached_iff.mp hreached).1
    obtain ⟨hr, ha, hn⟩ := lstat_eq_some.mp hdir
    constructor
    · rintro ⟨⟨ht, -⟩, hs, hm⟩
      obtain ⟨d, hd, hds⟩ := hs p (List.prefix_append _ _) h0 (by simp)
      rw [hn, Option.some.injEq] at hd
      exact ⟨⟨hd ▸ hds, ht⟩, hm⟩
    · rintro ⟨⟨hs, ht⟩, hm⟩
      refine ⟨⟨ht, hr.2⟩, fun a hap h0' hne => ?_, hm⟩
      by_cases he : a = p
      · exact ⟨dir, he ▸ hn, hs⟩
      · exact ha a (hinitial a hap hne) h0' he

/-- A child of the directory a recursion stands in is reached when it is found and not reserved. -/
theorem Stands.reached_child {dir : SourceNode} (h : Stands tree p dir) (name : Name) :
    reached tree (p ++ [name]) = true ↔ isReserved p name = false ∧ found tree (p ++ [name]) = true := by
  rw [reached_iff]
  rcases h with ⟨rfl, -⟩ | ⟨hreached, -⟩
  · constructor
    · rintro ⟨-, hr, ha⟩
      exact ⟨by simpa using hr, ha _ (List.prefix_refl _) (by simp)⟩
    · rintro ⟨hr, ha⟩
      refine ⟨by simp, by simpa using hr, fun a hap h0 => ?_⟩
      rcases List.prefix_concat_iff.mp hap with rfl | hap
      · exact ha
      · exact absurd (List.prefix_nil.mp hap) h0
  · obtain ⟨h0, hr, hs⟩ := reached_iff.mp hreached
    have hres : isReserved p name = false := by simp [isReserved, h0]
    have hhead : (p ++ [name]).head? = p.head? := (head_of_initial (List.prefix_append _ _) h0).symm
    constructor
    · rintro ⟨-, -, ha⟩
      exact ⟨hres, ha _ (List.prefix_refl _) (by simp)⟩
    · rintro ⟨-, ha⟩
      refine ⟨by simp, by rw [hhead]; exact hr, fun a hap h0' => ?_⟩
      rcases List.prefix_concat_iff.mp hap with rfl | hap
      · exact ha
      · exact hs a hap h0'

/-- One entry of the loop of `capture_directory`: it is not reached and passed over, or a pattern bars it and it is counted, or it is
selected and copied. -/
theorem captureEntry_cases {base : Option HostPath} {dir : SourceNode} (hopen : Opened tree policy p dir)
    (recurse : RelPath → SourceNode → CaptureState → Captured) (name : Name) :
    (reached tree (p ++ [name]) = false ∧ ∀ s, captureEntry ⟨tree, base, policy⟩ recurse p dir name s = (.ok (), s)) ∨
    (∃ st, reached tree (p ++ [name]) = true ∧ tree.lstat (p ++ [name]) = some st ∧ bars tree policy (p ++ [name]) = true ∧
      ∀ s, captureEntry ⟨tree, base, policy⟩ recurse p dir name s =
        (.ok (), { s with stats :=
          let stats := countExcludedTree tree tree.fuel (p ++ [name]) st s.stats
          { stats with exclusions := stats.exclusions ++ [⟨p ++ [name], st.isDir, policy.decide (p ++ [name]) st.isDir⟩] } })) ∨
    (∃ st, selected tree policy (p ++ [name]) = true ∧ tree.lstat (p ++ [name]) = some st ∧
      ∀ s, captureEntry ⟨tree, base, policy⟩ recurse p dir name s =
        (captureKept ⟨tree, base, policy⟩ recurse (p ++ [name]) st s).andThen (fun s =>
          (.ok (), { s with stats := { s.stats with entryCount := s.stats.entryCount + 1 } }))) := by
  have hlstat := hopen.stands.lstat_child name
  have hchild := hopen.stands.reached_child name
  by_cases hskip : isReserved p name = true
  · refine Or.inl ⟨?_, fun s => by rw [captureEntry, if_pos hskip]⟩
    rw [Bool.eq_false_iff, Ne, hchild]
    rintro ⟨hr, -⟩
    rw [hskip] at hr
    cases hr
  · have hresult := fun s => captureEntry.eq_def ⟨tree, base, policy⟩ recurse p dir name s
    simp only [if_neg hskip, joinRelative, ← hlstat] at hresult
    rw [Bool.not_eq_true] at hskip
    cases hl : tree.lstat (p ++ [name]) with
    | none =>
      refine Or.inl ⟨?_, fun s => by rw [hresult, hl]⟩
      rw [Bool.eq_false_iff, Ne, hchild, found_iff, hl]
      simp
    | some st =>
      have hget := lstat_get hl
      simp only [hl] at hresult
      by_cases htype : st.device ≠ tree.root.device ∨ st.isCapturable = false
      · refine Or.inl ⟨?_, fun s => (hresult s).trans (if_pos htype)⟩
        rw [Bool.eq_false_iff, Ne, hchild, found_iff]
        rintro ⟨-, m, hm, hdev, hcap⟩
        rw [hl, Option.some.injEq] at hm
        subst hm
        rcases htype with htype | htype
        · exact htype hdev
        · rw [htype] at hcap
          cases hcap
      · simp only [if_neg htype] at hresult
        rw [not_or, not_not, Bool.not_eq_false] at htype
        have hr : reached tree (p ++ [name]) = true := hchild.mpr ⟨hskip, found_iff.mpr ⟨st, hl, htype.1, htype.2⟩⟩
        have hexcludes : excludes tree policy (p ++ [name]) = (policy.decide (p ++ [name]) st.isDir).excluded :=
          excludes_of_get hget
        by_cases hex : (policy.decide (p ++ [name]) st.isDir).excluded = true
        · refine Or.inr (Or.inl ⟨st, hr, rfl, ?_, fun s => (hresult s).trans (if_pos hex)⟩)
          rw [hex] at hexcludes
          simp [bars, hexcludes, hopen.not_barred]
        · refine Or.inr (Or.inr ⟨st, ?_, rfl, fun s => (hresult s).trans (if_neg hex)⟩)
          rw [Bool.not_eq_true] at hex
          rw [hex] at hexcludes
          have hbarred : barred tree policy (p ++ [name]) = false := by
            rw [Bool.eq_false_iff, Ne, barred_concat, hopen.not_barred, hexcludes]
            simp
          rw [selected_eq, hr, hbarred]
          rfl

end stands

end TribiosVfs

import TribiosVfs.Lemmas.Capture
import TribiosVfs.Lib.PathSums

/-!
# What a capture counts

The figures of a capture are sums over the Project tree: each entry that is reached adds to the captured figures when no pattern
excludes it or what it lies beneath, and to the excluded ones otherwise. The recursions over kept and over excluded directories are
followed with one figure at a time. What it is counted in need only add up: the program's figures do so modulo 2^64.
-/

namespace TribiosVfs

/-! ## One figure -/

/-- A figure of a capture, and what it gains by an entry that is kept, by the bytes of a file, by an entry that is left out, and by
an exclusion that is listed. -/
structure Figure (M : Type) [AddCommMonoid M] where
  value : CaptureStats → M
  entry : M
  bytes : Nat → M
  left : Nat → M
  listed : CaptureExclusion → M
  bytes_zero : bytes 0 = 0
  value_entry : ∀ s, value { s with entryCount := s.entryCount + 1 } = value s + entry
  value_bytes : ∀ s n, value { s with bytes := s.bytes + .ofNat n } = value s + bytes n
  value_left : ∀ s n, value { s with excludedEntryCount := s.excludedEntryCount + 1, excludedBytes := s.excludedBytes + .ofNat n } =
    value s + left n
  value_listed : ∀ s x, value { s with exclusions := s.exclusions ++ [x] } = value s + listed x

namespace Figure

variable {M : Type} [AddCommMonoid M] (φ : Figure M) {tree : ProjectTree} {policy : CapturePolicy}

/-- What a figure gains by an entry of the tree. An excluded entry is listed as far as there are descriptors for the directories
above it. -/
def gain (tree : ProjectTree) (policy : CapturePolicy) (p : RelPath) : M :=
  match tree.entries.get p with
  | none => 0
  | some n =>
    if reached tree p = false then 0
    else if barred tree policy p then
      if tree.limits.descriptors < p.length then 0
      else φ.left n.fileBytes + if bars tree policy p then φ.listed ⟨p, n.isDir, policy.decide p n.isDir⟩ else 0
    else φ.entry + φ.bytes n.fileBytes

theorem gain_unreached {p : RelPath} (h : reached tree p = false) : φ.gain tree policy p = 0 := by
  unfold gain
  cases tree.entries.get p with
  | none => rfl
  | some n => exact if_pos h

/-- Nothing beneath what is not reached is reached. -/
theorem gain_beneath_unreached {p : RelPath} (h : reached tree p = false) (hne : p ≠ []) :
    ∑ q ∈ tree.entries.beneath p, φ.gain tree policy q = 0 := by
  refine Finset.sum_eq_zero (fun q hq => φ.gain_unreached ?_)
  rw [Bool.eq_false_iff]
  intro hr
  rw [reached_initial hr (PathMap.mem_beneath.mp hq).2.1 hne] at h
  cases h

/-- Beneath an excluded entry every entry that is reached is left out. -/
theorem gain_barred {p : RelPath} (n : Name) (h : barred tree policy p = true) {st : SourceNode}
    (hn : tree.entries.get (p ++ [n]) = some st) (hr : reached tree (p ++ [n]) = true) (ho : tree.opens p.length = true) :
    φ.gain tree policy (p ++ [n]) = φ.left st.fileBytes := by
  have hbarred : barred tree policy (p ++ [n]) = true := barred_initial h (List.prefix_append _ _)
  have hnot : bars tree policy (p ++ [n]) = false := by simp [bars, h]
  have hlength : ¬tree.limits.descriptors < (p ++ [n]).length := by
    rw [ProjectTree.opens, decide_eq_true_eq] at ho
    rw [List.length_append, List.length_singleton]
    omega
  simp only [gain, hn, hr, hbarred, hnot, hlength]
  simp

/-- Nothing is counted of an excluded entry that there is no descriptor left to list. -/
theorem gain_unlisted {p : RelPath} (h : barred tree policy p = true) (hlength : tree.limits.descriptors < p.length) :
    φ.gain tree policy p = 0 := by
  unfold gain
  cases tree.entries.get p with
  | none => rfl
  | some n => simp [h, hlength]

end Figure

/-! ## What a write leaves of the figures -/

section write

variable {walk : CaptureWalk} {child : RelPath} {s s' : CaptureState}

theorem write_stats {f : Host → HostPath → Except Errno Unit × Host} {e : Errno → CaptureError} {r : Except CaptureError Unit}
    (h : walk.write child s f e = (r, s')) : s'.stats = s.stats := by
  unfold CaptureWalk.write at h
  split at h
  · cases h
    rfl
  · split at h
    · cases h
      rfl
    · split at h <;> (cases h; rfl)

theorem chmod_stats (perm : Nat) : (walk.chmod child perm s).stats = s.stats := by
  unfold CaptureWalk.chmod
  split <;> rfl

end write

/-! ## Excluded subtrees -/

section walk

variable {M : Type} [AddCommMonoid M] (φ : Figure M) {tree : ProjectTree} {policy : CapturePolicy} (hw : tree.WF)
  (hread : ∀ p n, tree.entries.get p = some n → n.isDir = true → n.readable = true)

include hw hread

/-- `count_excluded_tree` adds up what is left out; the induction is on the fuel, which is more than the depth of what is beneath. -/
theorem countExcludedTree_value (fuel : Nat) : ∀ (p : RelPath) (st : SourceNode) (stats : CaptureStats),
    reached tree p = true → tree.lstat p = some st → barred tree policy p = true → tree.entries.depth < p.length + fuel →
    φ.value (countExcludedTree tree fuel p st stats) =
      φ.value stats + (φ.left st.fileBytes + ∑ q ∈ tree.entries.beneath p, φ.gain tree policy q) := by
  induction fuel with
  | zero =>
    intro p st stats _ hst _ hdepth
    have := PathMap.length_le_depth (m := tree.entries) (p := p) (by rw [lstat_get hst]; rfl)
    omega
  | succ fuel ih =>
    intro p st stats hreached hst hbarred hdepth
    have hget := lstat_get hst
    have h0 : p ≠ [] := (reached_iff.mp hreached).1
    have hstands : Stands tree p st := Or.inr ⟨hreached, hst⟩
    unfold countExcludedTree
    dsimp only
    by_cases hdir : (st.isDir && st.readable && tree.opens p.length) = true
    · rw [if_pos hdir]
      rw [Bool.and_eq_true, Bool.and_eq_true] at hdir
      -- the loop over the children, from any figures on
      have hloop : ∀ (names : List Name) (stats : CaptureStats),
          φ.value (names.foldl (fun stats name => match tree.lstatIn st (p ++ [name]) with
            | none => stats
            | some child =>
              if child.device ≠ tree.root.device ∨ child.isCapturable = false then stats
              else countExcludedTree tree fuel (p ++ [name]) child stats) stats) =
          φ.value stats + (names.map (fun n => φ.gain tree policy (p ++ [n]) +
            ∑ q ∈ tree.entries.beneath (p ++ [n]), φ.gain tree policy q)).sum := by
        intro names
        induction names with
        | nil => intro stats; simp
        | cons name names ihn =>
          intro stats
          rw [List.foldl_cons, ihn, List.map_cons, List.sum_cons, ← add_assoc]
          congr 1
          rw [← hstands.lstat_child name]
          have hres : isReserved p name = false := by simp [isReserved, h0]
          have hchild : reached tree (p ++ [name]) = true ↔ found tree (p ++ [name]) = true := by
            rw [hstands.reached_child name]
            simp [hres]
          have hpassed : reached tree (p ++ [name]) = false → φ.gain tree policy (p ++ [name]) +
              ∑ q ∈ tree.entries.beneath (p ++ [name]), φ.gain tree policy q = 0 := by
            intro hunreached
            rw [φ.gain_unreached hunreached, φ.gain_beneath_unreached hunreached (by simp), add_zero]
          cases hn : tree.lstat (p ++ [name]) with
          | none =>
            rw [hpassed, add_zero]
            rw [Bool.eq_false_iff, Ne, hchild, found_iff, hn]
            simp
          | some child =>
            dsimp only
            by_cases htype : child.device ≠ tree.root.device ∨ child.isCapturable = false
            · rw [if_pos htype, hpassed, add_zero]
              rw [Bool.eq_false_iff, Ne, hchild, found_iff]
              rintro ⟨m, hm, hdev, hcap⟩
              rw [hn, Option.some.injEq] at hm
              subst hm
              rcases htype with htype | htype
              · exact htype hdev
              · rw [htype] at hcap
                cases hcap
            · rw [if_neg htype]
              rw [not_or, not_not, Bool.not_eq_false] at htype
              have hr : reached tree (p ++ [name]) = true := hchild.mpr (found_iff.mpr ⟨child, hn, htype.1, htype.2⟩)
              rw [ih (p ++ [name]) child stats hr hn (barred_initial hbarred (List.prefix_append _ _))
                (by rw [List.length_append, List.length_singleton]; omega), φ.gain_barred name hbarred (lstat_get hn) hr hdir.2]
      refine (hloop _ _).trans ?_
      rw [← hw.rooted.sum_beneath, φ.value_left, add_assoc]
    · rw [if_neg hdir, φ.value_left]
      -- nothing is listed beneath what is no directory, or what there is no descriptor for
      have hnone : ∑ q ∈ tree.entries.beneath p, φ.gain tree policy q = 0 := by
        by_cases hd : st.isDir = true
        · have ho : tree.limits.descriptors ≤ p.length := by
            rw [hd, hread p st hget hd] at hdir
            simpa [ProjectTree.opens] using hdir
          refine Finset.sum_eq_zero (fun q hq => ?_)
          obtain ⟨-, hpq, hne⟩ := PathMap.mem_beneath.mp hq
          refine φ.gain_unlisted (barred_initial hbarred hpq) (lt_of_le_of_ne (ho.trans hpq.length_le) (fun he => ?_))
          exact hne (hpq.eq_of_length_le (he ▸ ho)).symm
        · rw [hw.rooted.beneath_leaf h0 hget (by simpa using hd), Finset.sum_empty]
      rw [hnone, add_zero]

/-! ## Kept directories -/

/-- What the capture of a directory is to add to a figure: what every entry beneath it gains. -/
def Figure.AddsDirectory (tree : ProjectTree) (policy : CapturePolicy)
    (recurse : RelPath → SourceNode → CaptureState → Captured) : Prop :=
  ∀ relative dir s s', recurse relative dir s = (.ok (), s') → Opened tree policy relative dir →
    φ.value s'.stats = φ.value s.stats + ∑ q ∈ tree.entries.beneath relative, φ.gain tree policy q

omit hread in
/-- The copy of a kept entry adds the bytes of a file, and what lies beneath a directory. -/
theorem captureKept_value {base : Option HostPath} {recurse : RelPath → SourceNode → CaptureState → Captured} {child : RelPath}
    {st : SourceNode} (h0 : child ≠ []) (hsel : selected tree policy child = true) (hst : tree.lstat child = some st)
    (hrec : φ.AddsDirectory tree policy recurse) {s s' : CaptureState}
    (hok : captureKept ⟨tree, base, policy⟩ recurse child st s = (.ok (), s')) :
    φ.value s'.stats = φ.value s.stats + φ.bytes st.fileBytes + ∑ q ∈ tree.entries.beneath child, φ.gain tree policy q := by
  have hget := lstat_get hst
  have hleaf : st.isDir = false → ∑ q ∈ tree.entries.beneath child, φ.gain tree policy q = 0 := by
    intro hd
    rw [hw.rooted.beneath_leaf h0 hget hd, Finset.sum_empty]
  unfold captureKept at hok
  cases hk : st.kind with
  | special =>
    rw [hk] at hok
    cases hok
    rw [hleaf (by rw [SourceNode.isDir, hk]), SourceNode.fileBytes, hk, φ.bytes_zero, add_zero, add_zero]
  | symlink t =>
    rw [hk] at hok
    rw [hleaf (by rw [SourceNode.isDir, hk]), write_stats hok, SourceNode.fileBytes, hk, φ.bytes_zero, add_zero, add_zero]
  | file data =>
    rw [hk] at hok
    obtain ⟨s₁, h₁, h₂⟩ := Captured.andThen_ok hok
    cases h₂
    rw [hleaf (by rw [SourceNode.isDir, hk]), φ.value_bytes, chmod_stats, write_stats h₁, SourceNode.fileBytes, hk, add_zero]
  | dir =>
    rw [hk] at hok
    obtain ⟨s₁, h₁, h₂⟩ := Captured.andThen_ok hok
    rw [hrec child st _ s' h₂ (Or.inr ⟨hsel, hst⟩), chmod_stats, write_stats h₁, SourceNode.fileBytes, hk, φ.bytes_zero,
      add_zero]

/-- One entry of the loop adds what the entry gains, and what the entries beneath it gain. -/
theorem captureEntry_value {base : Option HostPath} {recurse : RelPath → SourceNode → CaptureState → Captured}
    (hrec : φ.AddsDirectory tree policy recurse) {relative : RelPath} {dir : SourceNode} (hopen : Opened tree policy relative dir)
    (ho : tree.opens relative.length = true) (name : Name) {s s' : CaptureState}
    (hok : captureEntry ⟨tree, base, policy⟩ recurse relative dir name s = (.ok (), s')) :
    φ.value s'.stats = φ.value s.stats + (φ.gain tree policy (relative ++ [name]) +
      ∑ q ∈ tree.entries.beneath (relative ++ [name]), φ.gain tree policy q) := by
  obtain ⟨hr, he⟩ | ⟨st, hr, hst, hbars, he⟩ | ⟨st, hsel, hst, he⟩ := @captureEntry_cases _ _ _ base _ hopen recurse name
  · rw [he] at hok
    cases hok
    rw [φ.gain_unreached hr, φ.gain_beneath_unreached hr (by simp), add_zero, add_zero]
  · rw [he] at hok
    cases hok
    have hbarred := barred_of_bars hbars
    have hlength : ¬tree.limits.descriptors < (relative ++ [name]).length := by
      rw [ProjectTree.opens, decide_eq_true_eq] at ho
      rw [List.length_append, List.length_singleton]
      omega
    have hgain : φ.gain tree policy (relative ++ [name]) = φ.left st.fileBytes +
        φ.listed ⟨relative ++ [name], st.isDir, policy.decide (relative ++ [name]) st.isDir⟩ := by
      simp only [Figure.gain, lstat_get hst, hr, hbarred, hbars, hlength]
      simp
    dsimp only
    rw [φ.value_listed, countExcludedTree_value φ hw hread tree.fuel _ st s.stats hr hst hbarred
      (by rw [ProjectTree.fuel]; omega), hgain]
    abel
  · rw [he] at hok
    obtain ⟨s₁, h₁, h₂⟩ := Captured.andThen_ok hok
    cases h₂
    have hkept := captureKept_value φ hw (by simp) hsel hst hrec h₁
    rw [selected_eq, Bool.and_eq_true, Bool.not_eq_true'] at hsel
    have hgain : φ.gain tree policy (relative ++ [name]) = φ.entry + φ.bytes st.fileBytes := by
      simp [Figure.gain, lstat_get hst, hsel.1, hsel.2]
    rw [φ.value_entry, hkept, hgain]
    abel

/-- `capture_directory` adds what every entry beneath the directory gains; the induction is on the fuel. -/
theorem captureDirectory_value {base : Option HostPath} (fuel : Nat) :
    φ.AddsDirectory tree policy (captureDirectory ⟨tree, base, policy⟩ fuel) := by
  induction fuel with
  | zero =>
    intro relative dir s s' hok
    cases hok
  | succ fuel ih =>
    intro relative dir s s' hok hopen
    unfold captureDirectory at hok
    split at hok
    · cases hok
    · rename_i hopened
      simp only [Bool.or_eq_true, decide_eq_true_eq, not_or, Bool.not_eq_false] at hopened
      have heach : ∀ (names : List Name) (s s' : CaptureState),
          captureEach (captureEntry ⟨tree, base, policy⟩ (captureDirectory ⟨tree, base, policy⟩ fuel) relative dir) names s =
            (.ok (), s') →
          φ.value s'.stats = φ.value s.stats + (names.map (fun n => φ.gain tree policy (relative ++ [n]) +
            ∑ q ∈ tree.entries.beneath (relative ++ [n]), φ.gain tree policy q)).sum := by
        intro names
        induction names with
        | nil =>
          intro s s' h
          cases h
          simp
        | cons name names ihn =>
          intro s s' h
          obtain ⟨s₁, h₁, h₂⟩ := Captured.andThen_ok h
          have hentry := captureEntry_value φ hw hread ih hopen hopened.2 name h₁
          rw [ihn s₁ s' h₂, hentry, List.map_cons, List.sum_cons, add_assoc]
      rw [heach _ s s' hok, ← hw.rooted.sum_beneath]

end walk

/-! ## The whole capture -/

section totals

variable {M : Type} [AddCommMonoid M] (φ : Figure M) {tree : ProjectTree} {policy : CapturePolicy}

theorem createBaseDirectories_stats (ps : List HostPath) : ∀ {s s' : CaptureState},
    createBaseDirectories s ps = (.ok (), s') → s'.stats = s.stats := by
  induction ps with
  | nil =>
    intro s s' hok
    cases hok
    rfl
  | cons p ps ih =>
    intro s s' hok
    unfold createBaseDirectories at hok
    split at hok
    · exact (ih hok).trans rfl
    · cases hok

theorem createBase_stats {walk : CaptureWalk} {s s' : CaptureState} (hok : createBase walk s = (.ok (), s')) : s'.stats = s.stats := by
  unfold createBase at hok
  split at hok
  · cases hok
    rfl
  · exact createBaseDirectories_stats _ (createDirectoriesWithin_ok hok)

/-- `write_compiled_policy` adds the policy file. -/
theorem writeCompiledPolicy_value {base : Option HostPath} {s s' : CaptureState}
    (hok : writeCompiledPolicy ⟨tree, base, policy⟩ s = (.ok (), s')) :
    φ.value s'.stats = φ.value s.stats + if policy.present then φ.entry + φ.bytes policy.source.length else 0 := by
  unfold writeCompiledPolicy at hok
  by_cases hp : policy.present = true
  · rw [if_pos hp] at hok ⊢
    obtain ⟨s₂, h₂, h₃⟩ := Captured.andThen_ok hok
    obtain ⟨s₁, h₁, h₂⟩ := Captured.andThen_ok h₂
    cases h₃
    have hentry := φ.value_entry { s₂.stats with bytes := s₂.stats.bytes + .ofNat policy.source.length }
    have hbytes := φ.value_bytes s₂.stats policy.source.length
    have hstats : s₂.stats = s.stats := (write_stats h₂).trans (write_stats h₁)
    rw [hstats] at hbytes hentry ⊢
    dsimp only at hentry ⊢
    rw [hentry, hbytes]
    abel
  · rw [if_neg hp] at hok ⊢
    cases hok
    rw [add_zero]

/-- A figure of a whole capture, or of a dry run. -/
theorem walkProject_value (hw : tree.WF) (hread : ∀ p n, tree.entries.get p = some n → n.isDir = true → n.readable = true)
    {base : Option HostPath} {h : Host} {s' : CaptureState} (hok : walkProject ⟨tree, base, policy⟩ h = (.ok (), s')) :
    φ.value s'.stats = φ.value {} + (if policy.present then φ.entry + φ.bytes policy.source.length else 0) +
      ∑ q ∈ tree.entries.keys.toFinset, φ.gain tree policy q := by
  unfold walkProject at hok
  split at hok
  · cases hok
  · obtain ⟨s₂, h₂, h₃⟩ := Captured.andThen_ok hok
    obtain ⟨s₁, h₁, h₂⟩ := Captured.andThen_ok h₂
    have hbase := createBase_stats h₁
    rw [captureDirectory_value φ hw hread tree.fuel [] tree.root s₂ s' h₃ (Or.inl ⟨rfl, rfl⟩), hw.rooted.beneath_root,
      writeCompiledPolicy_value φ h₂, hbase]

end totals

/-! ## The dry run -/

/-- Where a step succeeds, another one leaves the same figures and the host as it is. -/
def Shadows (f g : CaptureState → Captured) : Prop :=
  ∀ s s' h, f s = (.ok (), s') → g ⟨h, s.stats⟩ = (.ok (), ⟨h, s'.stats⟩)

namespace Shadows

variable {f g f' g' : CaptureState → Captured} {tree : ProjectTree} {policy : CapturePolicy} {base : HostPath}

theorem andThen (hf : Shadows f f') (hg : Shadows g g') :
    Shadows (fun s => (f s).andThen g) (fun s => (f' s).andThen g') := by
  intro s s' h hok
  obtain ⟨s₁, h₁, h₂⟩ := Captured.andThen_ok hok
  dsimp only
  rw [hf s s₁ h h₁]
  exact hg s₁ s' h h₂

/-- A step that only changes the figures. -/
theorem figures (u : CaptureStats → CaptureStats) :
    Shadows (fun s => (.ok (), { s with stats := u s.stats })) (fun s => (.ok (), { s with stats := u s.stats })) := by
  intro s s' h hok
  cases hok
  rfl

theorem write (child : RelPath) (f : Host → HostPath → Except Errno Unit × Host) (e : Errno → CaptureError) :
    Shadows (fun s => CaptureWalk.write ⟨tree, some base, policy⟩ child s f e)
      (fun s => CaptureWalk.write ⟨tree, none, policy⟩ child s f e) := by
  intro s s' h hok
  rw [write_stats hok]
  rfl

/-- A change of mode before the next step. -/
theorem chmod (child : RelPath) (perm : Nat) (hf : Shadows f g) :
    Shadows (fun s => f (CaptureWalk.chmod ⟨tree, some base, policy⟩ child perm s))
      (fun s => g (CaptureWalk.chmod ⟨tree, none, policy⟩ child perm s)) := by
  intro s s' h hok
  have hg := hf _ s' h hok
  rwa [chmod_stats] at hg

theorem kept {recurse recurse' : RelPath → SourceNode → CaptureState → Captured}
    (hrec : ∀ child st, Shadows (recurse child st) (recurse' child st)) (child : RelPath) (st : SourceNode) :
    Shadows (captureKept ⟨tree, some base, policy⟩ recurse child st) (captureKept ⟨tree, none, policy⟩ recurse' child st) := by
  unfold captureKept
  cases st.kind with
  | special => exact figures id
  | symlink target => exact write child _ _
  | dir => exact (write child _ _).andThen (chmod child st.perm (hrec child st))
  | file data =>
    exact (write child _ _).andThen (chmod child st.perm (figures (fun stats => { stats with bytes := stats.bytes + .ofNat data.length })))

theorem entry {recurse recurse' : RelPath → SourceNode → CaptureState → Captured}
    (hrec : ∀ child st, Shadows (recurse child st) (recurse' child st)) (relative : RelPath) (dir : SourceNode) (name : Name) :
    Shadows (captureEntry ⟨tree, some base, policy⟩ recurse relative dir name)
      (captureEntry ⟨tree, none, policy⟩ recurse' relative dir name) := by
  intro s s' h hok
  unfold captureEntry at hok ⊢
  dsimp only at hok ⊢
  split at hok
  · rename_i hskip
    rw [if_pos hskip]
    exact figures id s s' h hok
  · rename_i hskip
    rw [if_neg hskip]
    cases hget : tree.lstatIn dir (joinRelative relative name) with
    | none =>
      rw [hget] at hok
      exact figures id s s' h hok
    | some st =>
      rw [hget] at hok
      dsimp only at hok ⊢
      split at hok
      · rename_i htype
        rw [if_pos htype]
        exact figures id s s' h hok
      · rename_i htype
        rw [if_neg htype]
        split at hok
        · rename_i hex
          rw [if_pos hex]
          exact figures (fun stats =>
            let stats := countExcludedTree tree tree.fuel (joinRelative relative name) st stats
            { stats with exclusions := stats.exclusions ++ [⟨joinRelative relative name, st.isDir,
              policy.decide (joinRelative relative name) st.isDir⟩] }) s s' h hok
        · rename_i hex
          rw [if_neg hex]
          exact (kept hrec _ st).andThen (figures (fun stats => { stats with entryCount := stats.entryCount + 1 })) s s' h hok

theorem each {f g : Name → CaptureState → Captured} (hf : ∀ n, Shadows (f n) (g n)) (names : List Name) :
    Shadows (captureEach f names) (captureEach g names) := by
  induction names with
  | nil => exact figures id
  | cons n names ih => exact (hf n).andThen ih

theorem directory (fuel : Nat) : ∀ relative dir, Shadows (captureDirectory ⟨tree, some base, policy⟩ fuel relative dir)
    (captureDirectory ⟨tree, none, policy⟩ fuel relative dir) := by
  induction fuel with
  | zero =>
    intro relative dir s s' h hok
    cases hok
  | succ fuel ih =>
    intro relative dir s s' h hok
    unfold captureDirectory at hok ⊢
    split at hok
    · cases hok
    · rename_i hr
      rw [if_neg hr]
      exact each (entry ih relative dir) _ s s' h hok

theorem policyFile : Shadows (writeCompiledPolicy ⟨tree, some base, policy⟩) (writeCompiledPolicy ⟨tree, none, policy⟩) := by
  intro s s' h hok
  unfold writeCompiledPolicy at hok ⊢
  dsimp only at hok ⊢
  split at hok
  · rename_i hp
    rw [if_pos hp]
    exact ((write _ _ _).andThen (write _ _ _)).andThen (figures (fun stats => { stats with
      bytes := stats.bytes + .ofNat policy.source.length
      entryCount := stats.entryCount + 1 })) s s' h hok
  · rename_i hp
    rw [if_neg hp]
    exact figures id s s' h hok

end Shadows

/-- Where a capture succeeds, the dry run reports the same and writes nothing. -/
theorem planBaseStateCapture_of_capture {tree : ProjectTree} {policy : CapturePolicy} {base : HostPath} {h : Host}
    {s' : CaptureState} (hok : captureBaseState tree base policy h = (.ok (), s')) (h₀ : Host) :
    planBaseStateCapture tree policy h₀ = (.ok (), ⟨h₀, s'.stats⟩) := by
  unfold captureBaseState planBaseStateCapture walkProject at *
  dsimp only at hok ⊢
  split at hok
  · cases hok
  · rename_i hd
    rw [if_neg hd]
    obtain ⟨s₂, h₂, h₃⟩ := Captured.andThen_ok hok
    obtain ⟨s₁, h₁, h₂⟩ := Captured.andThen_ok h₂
    have hstart := Shadows.policyFile s₁ s₂ h₀ h₂
    rw [createBase_stats h₁] at hstart
    have hrest := Shadows.directory tree.fuel [] tree.root s₂ s' h₀ h₃
    rw [createBase, Captured.andThen]
    rw [hstart]
    exact hrest

end TribiosVfs

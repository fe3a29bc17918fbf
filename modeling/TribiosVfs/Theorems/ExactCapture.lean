import TribiosVfs.Lemmas.CaptureFigures

/-!
# Exact capture

What a capture is to hold and to count is said of the Project tree alone: an entry belongs to the Project when it and everything
above it is a regular file, a directory or a symlink on the Project's device. A capture that succeeds is exact just when the walk sees
every such entry and its sums fit the numbers it keeps them in. What `lstat` cannot look at, because its path is too long or a
directory above it may not be searched, the walk passes over without an error, and so it does with what an excluded directory holds
when there is no descriptor left to list it.
-/

namespace TribiosVfs

/-! ## What a capture is to hold -/

/-- A regular file, directory or symlink on the Project's device, like everything above it, and not Git's or Tribios'. -/
def inProject (tree : ProjectTree) (p : RelPath) : Bool :=
  p ≠ [] && p.head? ≠ some kGitDirName && p.head? ≠ some kTribiosDirName &&
    p.inits.all (fun a => a = [] || (tree.entries.get a).any (fun n => n.device = tree.root.device && n.isCapturable))

/-- The policy file, which the capture writes itself. -/
def isPolicyFile (policy : CapturePolicy) (p : RelPath) : Bool := policy.present && p = [kCapturePolicyFileName]

/-- What the Base state is to contain: what no pattern excludes, and the policy file. -/
def captured (tree : ProjectTree) (policy : CapturePolicy) (p : RelPath) : Bool :=
  isPolicyFile policy p || (inProject tree p && !barred tree policy p)

/-- What a pattern leaves out. -/
def leftOut (tree : ProjectTree) (policy : CapturePolicy) (p : RelPath) : Bool :=
  inProject tree p && barred tree policy p && !isPolicyFile policy p

/-- What a pattern leaves out, with nothing above it left out. -/
def maximal (tree : ProjectTree) (policy : CapturePolicy) (p : RelPath) : Bool :=
  leftOut tree policy p && !barred tree policy p.dropLast

def capturedPaths (tree : ProjectTree) (policy : CapturePolicy) : Finset RelPath :=
  (insert [kCapturePolicyFileName] tree.entries.keys.toFinset).filter (fun q => captured tree policy q)

def leftOutPaths (tree : ProjectTree) (policy : CapturePolicy) : Finset RelPath :=
  tree.entries.keys.toFinset.filter (fun q => leftOut tree policy q)

/-- The size of a regular file. -/
def entrySize (tree : ProjectTree) (policy : CapturePolicy) (p : RelPath) : Nat :=
  if isPolicyFile policy p then policy.source.length else (tree.entries.get p).elim 0 SourceNode.fileBytes

/-- The kind, content or link target of an entry, and its permission bits unless it is a symlink. -/
def Copies (n : SourceNode) (x : Node) : Prop :=
  match n.kind with
  | .file data => x.contents = .file data ∧ x.attrs.perm = permBits n.perm
  | .dir => x.contents = .dir ∧ x.attrs.perm = permBits n.perm
  | .symlink target => x.contents = .symlink target
  | .special => False

/-- The Base state and the figures are those of the Project, and the dry run reports the same. -/
structure ExactCapture (tree : ProjectTree) (policy : CapturePolicy) (base : HostPath) (s : CaptureState) : Prop where
  contains : ∀ q, q ≠ [] → (s.host.tree.get (base ++ q)).isSome = captured tree policy q
  copies : ∀ q n x, captured tree policy q = true → isPolicyFile policy q = false → tree.entries.get q = some n →
    s.host.tree.get (base ++ q) = some x → Copies n x
  policyFile : policy.present = true → ∃ x, s.host.tree.get (base ++ [kCapturePolicyFileName]) = some x ∧
    x.contents = .file policy.source ∧ x.attrs.perm = permBits policy.sourceMode
  entryCount : s.stats.entryCount.toInt = (capturedPaths tree policy).card
  bytes : s.stats.bytes.toInt = ((∑ q ∈ capturedPaths tree policy, entrySize tree policy q : Nat) : Int)
  excludedEntryCount : s.stats.excludedEntryCount.toInt = (leftOutPaths tree policy).card
  excludedBytes : s.stats.excludedBytes.toInt = ((∑ q ∈ leftOutPaths tree policy, entrySize tree policy q : Nat) : Int)
  listedOnce : (s.stats.exclusions.map CaptureExclusion.path).Nodup
  listed : ∀ p, p ∈ s.stats.exclusions.map CaptureExclusion.path ↔ maximal tree policy p = true
  plan : ∀ h, planBaseStateCapture tree policy h = (.ok (), ⟨h, s.stats⟩)

/-- Every entry of the Project has a path that a call takes and lies in directories that may be searched, and under the name of the
policy file there is only the file that the policy was read from. -/
def Searched (tree : ProjectTree) (policy : CapturePolicy) : Prop :=
  ∀ p, inProject tree p = true → isPolicyFile policy p = false → p.head? ≠ some kCapturePolicyFileName ∧
    (tree.takes p = true ∧ tree.root.searchable = true) ∧
      ∀ a, a <+: p → a ≠ [] → a ≠ p → (tree.entries.get a).any SourceNode.searchable = true

/-- The walk sees every entry of the Project, it has the descriptors to list what a pattern leaves out, and the figures are less than
2^63. -/
structure WithinReach (tree : ProjectTree) (policy : CapturePolicy) : Prop where
  searched : Searched tree policy
  descriptors : ∀ p, leftOut tree policy p = true → p.length ≤ tree.limits.descriptors
  entryCount : (capturedPaths tree policy).card < 2 ^ 63
  bytes : ∑ q ∈ capturedPaths tree policy, entrySize tree policy q < 2 ^ 63
  excludedEntryCount : (leftOutPaths tree policy).card < 2 ^ 63
  excludedBytes : ∑ q ∈ leftOutPaths tree policy, entrySize tree policy q < 2 ^ 63

/-! ## What the walk reaches -/

section reach

variable {tree : ProjectTree} {policy : CapturePolicy} {p : RelPath}

theorem inProject_iff : inProject tree p = true ↔ p ≠ [] ∧ p.head? ≠ some kGitDirName ∧ p.head? ≠ some kTribiosDirName ∧
    ∀ a, a <+: p → a ≠ [] → ∃ n, tree.entries.get a = some n ∧ n.device = tree.root.device ∧ n.isCapturable = true := by
  unfold inProject
  simp only [Bool.and_eq_true, List.all_eq_true, List.mem_inits, decide_eq_true_eq, Bool.or_eq_true, ne_eq,
    Option.any_eq_true, and_assoc]
  refine and_congr_right fun _ => and_congr_right fun _ => and_congr_right fun _ => ?_
  exact forall_congr' fun a => forall_congr' fun _ => or_iff_not_imp_left

theorem isReserved_head : isReserved [] (p.head?.getD []) = false ↔
    p.head? ≠ some kGitDirName ∧ p.head? ≠ some kTribiosDirName ∧ p.head? ≠ some kCapturePolicyFileName := by
  cases p with
  | nil => simp [isReserved, kGitDirName, kTribiosDirName, kCapturePolicyFileName]
  | cons n p =>
    rw [isReserved, List.head?_cons, Option.getD_some]
    simp only [decide_true, Bool.true_and, Bool.or_eq_false_iff, decide_eq_false_iff_not, and_assoc, ne_eq, Option.some.injEq]

/-- What the walk reaches belongs to the Project, and is not the policy file. -/
theorem inProject_of_reached (h : reached tree p = true) : inProject tree p = true ∧ isPolicyFile policy p = false := by
  obtain ⟨h0, hr, ha⟩ := reached_iff.mp h
  obtain ⟨hg, ht, hp⟩ := isReserved_head.mp hr
  refine ⟨inProject_iff.mpr ⟨h0, hg, ht, fun a hap hne => ?_⟩, ?_⟩
  · obtain ⟨n, hn, hd, hc⟩ := found_iff.mp (ha a hap hne)
    exact ⟨n, lstat_get hn, hd, hc⟩
  · rw [Bool.eq_false_iff]
    intro hfile
    rw [isPolicyFile, Bool.and_eq_true, decide_eq_true_eq] at hfile
    rw [hfile.2] at hp
    exact hp rfl

/-- An entry of the Project is reached when its path is not too long and the directories above it may be searched. -/
theorem reached_of_inProject (h : inProject tree p = true) : reached tree p = true ↔ p.head? ≠ some kCapturePolicyFileName ∧
    (tree.takes p = true ∧ tree.root.searchable = true) ∧
      ∀ a, a <+: p → a ≠ [] → a ≠ p → (tree.entries.get a).any SourceNode.searchable = true := by
  obtain ⟨h0, hg, ht, ha⟩ := inProject_iff.mp h
  constructor
  · intro hr
    obtain ⟨n, hn, -⟩ := reached_lstat hr
    obtain ⟨hroot, hs, -⟩ := lstat_eq_some.mp hn
    refine ⟨(isReserved_head.mp (reached_iff.mp hr).2.1).2.2, hroot, fun a hap hne hnp => ?_⟩
    obtain ⟨m, hm, hms⟩ := hs a hap hne hnp
    rw [hm]
    exact hms
  · rintro ⟨hp, hroot, hs⟩
    refine reached_iff.mpr ⟨h0, isReserved_head.mpr ⟨hg, ht, hp⟩, fun a hap hne => ?_⟩
    obtain ⟨n, hn, hd, hc⟩ := ha a hap hne
    refine found_iff.mpr ⟨n, lstat_eq_some.mpr ⟨⟨takes_initial hroot.1 hap, hroot.2⟩, fun b hb hb0 hba => ?_, hn⟩, hd, hc⟩
    have hbp : b ≠ p := by
      rintro rfl
      exact hba (hb.eq_of_length_le hap.length_le)
    have hbs := hs b (hb.trans hap) hb0 hbp
    obtain ⟨m, hm, hms⟩ := Option.any_eq_true _ _ |>.mp hbs
    exact ⟨m, hm, hms⟩

theorem searched_iff : Searched tree policy ↔
    ∀ p, inProject tree p = true → isPolicyFile policy p = false → reached tree p = true :=
  forall_congr' fun _ => forall_congr' fun h => forall_congr' fun _ => (reached_of_inProject h).symm

theorem Searched.reached_eq (hs : Searched tree policy) (p : RelPath) :
    reached tree p = (inProject tree p && !isPolicyFile policy p) := by
  rw [Bool.eq_iff_iff, Bool.and_eq_true, Bool.not_eq_true']
  exact ⟨inProject_of_reached, fun h => searched_iff.mp hs p h.1 h.2⟩

/-- A policy read from the Project finds nothing else under the policy file's name. -/
theorem loadFromProject_policyFile (hw : tree.WF) (hload : CapturePolicy.loadFromProject tree = .ok policy)
    (h : inProject tree p = true) (hp : p.head? = some kCapturePolicyFileName) : isPolicyFile policy p = true := by
  obtain ⟨h0, -, -, ha⟩ := inProject_iff.mp h
  obtain ⟨name, rest, rfl⟩ := List.exists_cons_of_ne_nil h0
  rw [List.head?_cons, Option.some.injEq] at hp
  subst hp
  obtain ⟨n, hn, -⟩ := ha [kCapturePolicyFileName] ⟨rest, rfl⟩ (by simp)
  obtain ⟨hdir, -, hpresent⟩ := (loadFromProject_ok hload).2 n hn
  by_cases hrest : rest = []
  · subst hrest
    rw [isPolicyFile, hpresent]
    rfl
  · -- nothing lies beneath a file
    obtain ⟨m, hm, -⟩ := ha _ (List.prefix_refl _) h0
    have hbelow : [kCapturePolicyFileName] <+: kCapturePolicyFileName :: rest := ⟨rest, rfl⟩
    rw [hw.rooted.get_under_leaf (by simp) hn hdir hbelow (by simpa using Ne.symm hrest)] at hm
    cases hm

end reach

/-! ## The figures -/

namespace Figure

theorem toBitVec_add_ofNat (x : Int64) (n : Nat) : (x + .ofNat n).toBitVec = x.toBitVec + (n : BitVec 64) := by
  rw [Int64.toBitVec_add, Int64.toBitVec_ofNat', BitVec.natCast_eq_ofNat]

/-- The figures as the program keeps them, modulo 2^64. -/
def entryCount : Figure (BitVec 64) := ⟨fun s => s.entryCount.toBitVec, 1, fun _ => 0, fun _ => 0, fun _ => 0, rfl,
  fun _ => rfl, fun _ _ => by simp, fun _ _ => by simp, fun _ _ => by simp⟩

def capturedBytes : Figure (BitVec 64) := ⟨fun s => s.bytes.toBitVec, 0, fun n => n, fun _ => 0, fun _ => 0, rfl,
  fun _ => by simp, fun s n => toBitVec_add_ofNat s.bytes n, fun _ _ => by simp, fun _ _ => by simp⟩

def excludedEntryCount : Figure (BitVec 64) := ⟨fun s => s.excludedEntryCount.toBitVec, 0, fun _ => 0, fun _ => 1, fun _ => 0, rfl,
  fun _ => by simp, fun _ _ => by simp, fun _ _ => rfl, fun _ _ => by simp⟩

def excludedBytes : Figure (BitVec 64) := ⟨fun s => s.excludedBytes.toBitVec, 0, fun _ => 0, fun n => n, fun _ => 0, rfl,
  fun _ => by simp, fun _ _ => by simp, fun s n => toBitVec_add_ofNat s.excludedBytes n, fun _ _ => by simp⟩

/-- How often a path is listed. -/
def listings (p : RelPath) : Figure Nat := ⟨fun s => (s.exclusions.map CaptureExclusion.path).count p, 0, fun _ => 0, fun _ => 0,
  fun x => if x.path = p then 1 else 0, rfl, fun _ => rfl, fun _ _ => rfl, fun _ _ => rfl, fun s x => by
    rw [List.map_append, List.count_append]
    simp [List.count_singleton]⟩

/-- A number kept modulo 2^64 is the number itself just when it is less than 2^63. -/
theorem toInt_eq_iff {x : Int64} {n : Nat} (h : x.toBitVec = (n : BitVec 64)) : x.toInt = n ↔ n < 2 ^ 63 := by
  rw [← Int64.toInt_toBitVec, h, BitVec.natCast_eq_ofNat, BitVec.toInt_ofNat', Int.bmod_def]
  split <;> omega

theorem lt_of_toInt_eq {x : Int64} {n : Nat} (h : x.toInt = n) : n < 2 ^ 63 := by
  have := x.toInt_lt
  omega

end Figure

section totals

variable {M : Type} [AddCommMonoid M] (φ : Figure M) {tree : ProjectTree} {policy : CapturePolicy}

/-- How an entry that is left out is listed. -/
def exclusionOf (tree : ProjectTree) (policy : CapturePolicy) (p : RelPath) : CaptureExclusion :=
  match tree.entries.get p with
  | none => ⟨p, false, {}⟩
  | some n => ⟨p, n.isDir, policy.decide p n.isDir⟩

theorem exclusionOf_path (p : RelPath) : (exclusionOf tree policy p).path = p := by
  unfold exclusionOf
  cases tree.entries.get p <;> rfl

theorem inProject_isSome {p : RelPath} (h : inProject tree p = true) : p ≠ [] ∧ (tree.entries.get p).isSome := by
  obtain ⟨h0, -, -, ha⟩ := inProject_iff.mp h
  obtain ⟨n, hn, -⟩ := ha p (List.prefix_refl p) h0
  exact ⟨h0, by rw [hn]; rfl⟩

/-- A sum over what is captured: the policy file, and the entries of the tree. -/
theorem sum_capturedPaths (f : RelPath → M) : ∑ q ∈ capturedPaths tree policy, f q =
    (if policy.present then f [kCapturePolicyFileName] else 0) +
      ∑ q ∈ tree.entries.keys.toFinset, if inProject tree q && !barred tree policy q && !isPolicyFile policy q then f q else 0 := by
  have hsplit : capturedPaths tree policy = (if policy.present then {[kCapturePolicyFileName]} else ∅) ∪
      tree.entries.keys.toFinset.filter (fun q => (inProject tree q && !barred tree policy q && !isPolicyFile policy q) = true) := by
    ext q
    rw [capturedPaths, Finset.mem_filter, Finset.mem_insert, Finset.mem_union, Finset.mem_filter, captured]
    have hkey : inProject tree q = true → q ∈ tree.entries.keys.toFinset := by
      intro h
      rw [List.mem_toFinset, PathMap.mem_keys]
      exact (inProject_isSome h).2
    by_cases hfile : isPolicyFile policy q = true
    · have hq := hfile
      rw [isPolicyFile, Bool.and_eq_true, decide_eq_true_eq] at hq
      have hfile' : isPolicyFile policy [kCapturePolicyFileName] = true := hq.2 ▸ hfile
      simp [hfile', hq.1, hq.2]
    · rw [Bool.not_eq_true] at hfile
      have hq : q ∉ (if policy.present then {[kCapturePolicyFileName]} else ∅ : Finset RelPath) := by
        intro h
        split at h
        · rename_i hp
          rw [isPolicyFile, hp, Bool.true_and, decide_eq_false_iff_not] at hfile
          exact hfile (Finset.mem_singleton.mp h)
        · simp at h
      simp only [hfile, hq, Bool.false_or, Bool.not_false, Bool.and_true, false_or, Bool.and_eq_true]
      exact ⟨fun h => ⟨hkey h.2.1, h.2⟩, fun h => ⟨Or.inr h.1, h.2⟩⟩
  have hdisjoint : Disjoint (if policy.present then {[kCapturePolicyFileName]} else ∅ : Finset RelPath)
      (tree.entries.keys.toFinset.filter
        (fun q => (inProject tree q && !barred tree policy q && !isPolicyFile policy q) = true)) := by
    refine Finset.disjoint_left.mpr fun q hq hq' => ?_
    split at hq
    · rename_i hp
      rw [Finset.mem_singleton.mp hq, Finset.mem_filter] at hq'
      simp [isPolicyFile, hp] at hq'
    · simp at hq
  rw [hsplit, Finset.sum_union hdisjoint, Finset.sum_filter]
  congr 1
  split <;> simp

theorem sum_leftOutPaths (f : RelPath → M) : ∑ q ∈ leftOutPaths tree policy, f q =
    ∑ q ∈ tree.entries.keys.toFinset, if leftOut tree policy q then f q else 0 := by
  unfold leftOutPaths
  exact Finset.sum_filter _ _

/-- A figure of a capture whose walk passes over nothing. -/
theorem Searched.value (hs : Searched tree policy) (hlisted : ∀ p, leftOut tree policy p = true → p.length ≤ tree.limits.descriptors)
    (hw : tree.WF)
    (hread : ∀ p n, tree.entries.get p = some n → n.isDir = true → n.readable = true) {base : Option HostPath} {h : Host}
    {s' : CaptureState} (hok : walkProject ⟨tree, base, policy⟩ h = (.ok (), s')) :
    φ.value s'.stats = φ.value {} + ∑ q ∈ capturedPaths tree policy, (φ.entry + φ.bytes (entrySize tree policy q)) +
      ∑ q ∈ leftOutPaths tree policy, (φ.left (entrySize tree policy q) +
        if maximal tree policy q then φ.listed (exclusionOf tree policy q) else 0) := by
  have hgain : ∀ q ∈ tree.entries.keys.toFinset, φ.gain tree policy q =
      (if inProject tree q && !barred tree policy q && !isPolicyFile policy q
        then φ.entry + φ.bytes (entrySize tree policy q) else 0) +
      if leftOut tree policy q then φ.left (entrySize tree policy q) +
        (if maximal tree policy q then φ.listed (exclusionOf tree policy q) else 0) else 0 := by
    intro q hq
    rw [List.mem_toFinset, PathMap.mem_keys] at hq
    obtain ⟨n, hn⟩ := Option.isSome_iff_exists.mp hq
    have hreached := hs.reached_eq q
    cases hr : reached tree q with
    | false =>
      rw [φ.gain_unreached hr]
      rw [hr] at hreached
      have hnot : inProject tree q = false ∨ isPolicyFile policy q = true := by
        rw [eq_comm, Bool.and_eq_false_iff, Bool.not_eq_false'] at hreached
        exact hreached
      rcases hnot with hp | hf
      · simp [leftOut, hp]
      · simp [leftOut, hf]
    | true =>
      obtain ⟨hp, hf⟩ := @inProject_of_reached _ policy _ hr
      have hsize : entrySize tree policy q = n.fileBytes := by
        rw [entrySize, hf, hn]
        rfl
      have hexclusion : exclusionOf tree policy q = ⟨q, n.isDir, policy.decide q n.isDir⟩ := by
        rw [exclusionOf, hn]
      have hbars := @bars_eq tree policy _ (inProject_isSome hp).1
      cases hb : barred tree policy q with
      | false => simp [Figure.gain, hn, hr, hb, hp, hf, hsize, leftOut]
      | true =>
        rw [hb, Bool.true_and] at hbars
        have hleft : leftOut tree policy q = true := by
          rw [leftOut, hp, hb, hf]
          rfl
        have hlength := Nat.not_lt.mpr (hlisted q hleft)
        simp only [Figure.gain, hn, hr, hb, hp, hf, hlength, hsize, hexclusion, leftOut, maximal, hbars]
        simp
  rw [walkProject_value φ hw hread hok, Finset.sum_congr rfl hgain, Finset.sum_add_distrib, sum_capturedPaths,
    sum_leftOutPaths]
  have hpolicy : policy.present = true → entrySize tree policy [kCapturePolicyFileName] = policy.source.length := by
    intro hp
    simp [entrySize, isPolicyFile, hp]
  by_cases hp : policy.present = true
  · rw [if_pos hp, if_pos hp, hpolicy hp]
    abel
  · rw [if_neg hp, if_neg hp]
    abel

/-- An entry that the walk sees and can list. -/
def counted (tree : ProjectTree) (p : RelPath) : Bool := reached tree p && decide (p.length ≤ tree.limits.descriptors)

/-- An entry left out counts once when the walk sees it and can list it, and not at all otherwise. -/
theorem excludedEntryCount_gain (q : RelPath) : Figure.excludedEntryCount.gain tree policy q =
    ((if leftOut tree policy q && counted tree q then 1 else 0 : Nat) : BitVec 64) := by
  cases hr : reached tree q with
  | false =>
    rw [Figure.gain_unreached _ hr]
    simp [counted, hr]
  | true =>
    obtain ⟨hp, hf⟩ := @inProject_of_reached _ policy _ hr
    obtain ⟨n, hn⟩ := Option.isSome_iff_exists.mp (inProject_isSome hp).2
    cases hb : barred tree policy q with
    | false => simp [Figure.gain, hn, hr, hb, hp, hf, leftOut, Figure.excludedEntryCount]
    | true =>
      by_cases hlength : tree.limits.descriptors < q.length
      · rw [Figure.gain_unlisted _ hb hlength]
        simp [counted, Nat.not_le.mpr hlength]
      · simp only [Figure.gain, hn, hr, hb, hp, hf, hlength, leftOut, counted, Nat.not_lt.mp hlength, Figure.excludedEntryCount]
        simp

end totals

/-! ## The capture -/

section capture

variable {tree : ProjectTree} {policy : CapturePolicy} {base : HostPath} {h : Host} {s : CaptureState}

theorem selected_of_captured (hs : Searched tree policy) {q : RelPath} (hf : isPolicyFile policy q = false) :
    selected tree policy q = captured tree policy q := by
  rw [selected_eq, hs.reached_eq, captured, hf]
  simp

theorem Copies.of_image {n : SourceNode} {x : Node} (hc : n.isCapturable = true) (h : x.image = n.image) : Copies n x := by
  unfold Copies
  unfold SourceNode.image Node.image at h
  unfold SourceNode.isCapturable at hc
  cases hk : n.kind with
  | file data =>
    rw [hk] at h
    exact ⟨congrArg Prod.fst h, congrArg Prod.snd h⟩
  | dir =>
    rw [hk] at h
    exact ⟨congrArg Prod.fst h, congrArg Prod.snd h⟩
  | symlink t =>
    rw [hk] at h
    exact congrArg Prod.fst h
  | special =>
    rw [hk] at hc
    cases hc

/-- What a Base directory holds where it shows the image. -/
theorem contains_iff (himage : ∀ q, q ≠ [] → baseImage s.host base q = image tree policy q) {q : RelPath} (h0 : q ≠ []) :
    (s.host.tree.get (base ++ q)).isSome = (isPolicyFile policy q || selected tree policy q) := by
  have hsome : (s.host.tree.get (base ++ q)).isSome = (image tree policy q).isSome := by
    rw [← himage q h0, baseImage, Option.isSome_map]
  rw [hsome, image, isPolicyFile]
  by_cases hfile : policy.present = true ∧ q = [kCapturePolicyFileName]
  · rw [if_pos hfile]
    simp [hfile.1, hfile.2]
  · rw [if_neg hfile]
    have hf : (policy.present && decide (q = [kCapturePolicyFileName])) = false := by
      rw [Bool.eq_false_iff]
      intro hf
      rw [Bool.and_eq_true, decide_eq_true_eq] at hf
      exact hfile hf
    rw [hf, Bool.false_or]
    cases hsel : selected tree policy q with
    | false => rfl
    | true =>
      obtain ⟨n, -, hn⟩ := selected_get hsel
      rw [if_pos rfl, hn]
      rfl

/-- A capture whose walk passes over nothing is exact. -/
theorem WithinReach.exact (hreach : WithinReach tree policy) (hw : tree.WF)
    (hread : ∀ p n, tree.entries.get p = some n → n.isDir = true → n.readable = true)
    (hok : captureBaseState tree base policy h = (.ok (), s))
    (himage : ∀ q, q ≠ [] → baseImage s.host base q = image tree policy q) : ExactCapture tree policy base s := by
  have hsearched := hreach.searched
  have hvalue := fun φ => hsearched.value (M := BitVec 64) φ hreach.descriptors hw hread hok
  have hlisted : ∀ p, (s.stats.exclusions.map CaptureExclusion.path).count p = if maximal tree policy p then 1 else 0 := by
    intro p
    have hp := hsearched.value (Figure.listings p) hreach.descriptors hw hread hok
    simp only [Figure.listings, exclusionOf_path, List.map_nil, List.count_nil, Nat.zero_add, Finset.sum_const_zero] at hp
    rw [hp]
    have hone : ∀ q ∈ leftOutPaths tree policy, (if maximal tree policy q = true then if q = p then 1 else 0 else 0) =
        if q = p then (if maximal tree policy p = true then 1 else 0) else 0 := by
      intro q _
      by_cases hq : q = p
      · subst hq
        simp
      · simp [hq]
    rw [Finset.sum_congr rfl hone, Finset.sum_ite_eq']
    by_cases hmax : maximal tree policy p = true
    · have hleft : leftOut tree policy p = true := by
        rw [maximal, Bool.and_eq_true] at hmax
        exact hmax.1
      have hmem : p ∈ leftOutPaths tree policy := by
        rw [leftOut, Bool.and_eq_true, Bool.and_eq_true] at hleft
        rw [leftOutPaths, Finset.mem_filter, List.mem_toFinset, PathMap.mem_keys]
        exact ⟨(inProject_isSome hleft.1.1).2, by rw [leftOut, hleft.1.1, hleft.1.2, hleft.2]; rfl⟩
      rw [if_pos hmem]
    · rw [if_neg hmax, ite_self]
  refine ⟨fun q h0 => ?_, ?_, fun hpresent => ?_, ?_, ?_, ?_, ?_, ?_, fun p => ?_, planBaseStateCapture_of_capture hok⟩
  · rw [contains_iff himage h0]
    cases hf : isPolicyFile policy q with
    | true => simp [captured, hf]
    | false => rw [Bool.false_or, selected_of_captured hsearched hf]
  · intro q n x hc hf hn hx
    have hsel : selected tree policy q = true := (selected_of_captured hsearched hf).trans hc
    have h0 : q ≠ [] := (selected_iff.mp hsel).1
    have hi := himage q h0
    rw [image_of_selected hsel hn, baseImage, hx, Option.map_some, Option.some.injEq] at hi
    obtain ⟨m, hm, -, hcap, -⟩ := admits_iff.mp ((selected_iff.mp hsel).2.2 q (List.prefix_refl q) h0)
    rw [lstat_get hm, Option.some.injEq] at hn
    exact Copies.of_image (hn ▸ hcap) hi
  · have hi := himage [kCapturePolicyFileName] (by simp)
    rw [image, if_pos ⟨hpresent, rfl⟩] at hi
    obtain ⟨x, hx, hxi⟩ := Option.map_eq_some_iff.mp hi
    exact ⟨x, hx, congrArg Prod.fst hxi, congrArg Prod.snd hxi⟩
  · refine (Figure.toInt_eq_iff ?_).mpr hreach.entryCount
    have hv := hvalue Figure.entryCount
    simpa [Figure.entryCount] using hv
  · refine (Figure.toInt_eq_iff ?_).mpr hreach.bytes
    have hv := hvalue Figure.capturedBytes
    simpa [Figure.capturedBytes] using hv
  · refine (Figure.toInt_eq_iff ?_).mpr hreach.excludedEntryCount
    have hv := hvalue Figure.excludedEntryCount
    simpa [Figure.excludedEntryCount] using hv
  · refine (Figure.toInt_eq_iff ?_).mpr hreach.excludedBytes
    have hv := hvalue Figure.excludedBytes
    simpa [Figure.excludedBytes] using hv
  · rw [List.nodup_iff_count_le_one]
    intro p
    rw [hlisted p]
    split <;> omega
  · rw [← List.count_pos_iff, hlisted p]
    split <;> simp_all

/-- In an exact capture everything left out is counted: the sum is as large as it can be. -/
theorem ExactCapture.counted (he : ExactCapture tree policy base s) (hw : tree.WF)
    (hread : ∀ p n, tree.entries.get p = some n → n.isDir = true → n.readable = true)
    (hok : captureBaseState tree base policy h = (.ok (), s)) {p : RelPath} (hleft : leftOut tree policy p = true) :
    counted tree p = true := by
  by_contra hc
  have hkey : p ∈ tree.entries.keys.toFinset := by
    rw [leftOut, Bool.and_eq_true, Bool.and_eq_true] at hleft
    rw [List.mem_toFinset, PathMap.mem_keys]
    exact (inProject_isSome hleft.1.1).2
  have hlt : ∑ q ∈ tree.entries.keys.toFinset, (if leftOut tree policy q && TribiosVfs.counted tree q then 1 else 0) <
      ∑ q ∈ tree.entries.keys.toFinset, if leftOut tree policy q then 1 else 0 := by
    refine Finset.sum_lt_sum (fun q _ => ?_) ⟨p, hkey, ?_⟩
    · cases leftOut tree policy q <;> cases TribiosVfs.counted tree q <;> simp
    · simp [hleft, hc]
  have hv := walkProject_value Figure.excludedEntryCount hw hread hok
  rw [Finset.sum_congr rfl (fun q _ => excludedEntryCount_gain q), ← Nat.cast_sum] at hv
  have hcount := he.excludedEntryCount
  rw [Finset.card_eq_sum_ones, sum_leftOutPaths] at hcount
  have hbound := Figure.lt_of_toInt_eq hcount
  have hsame := (Figure.toInt_eq_iff (x := s.stats.excludedEntryCount) (by simpa [Figure.excludedEntryCount] using hv)).mpr
    (hlt.trans hbound)
  omega

/-- Where a capture is exact, the walk saw every entry. -/
theorem ExactCapture.searched (he : ExactCapture tree policy base s) (hw : tree.WF)
    (hread : ∀ p n, tree.entries.get p = some n → n.isDir = true → n.readable = true)
    (hok : captureBaseState tree base policy h = (.ok (), s))
    (himage : ∀ q, q ≠ [] → baseImage s.host base q = image tree policy q) : Searched tree policy := by
  refine searched_iff.mpr fun p hp hf => ?_
  cases hb : barred tree policy p with
  | false =>
    have hc := he.contains p (inProject_isSome hp).1
    rw [contains_iff himage (inProject_isSome hp).1, selected_eq, captured, hp, hb, hf] at hc
    simpa using hc
  | true =>
    have hcounted := he.counted hw hread hok (p := p) (by rw [leftOut, hp, hb, hf]; rfl)
    rw [TribiosVfs.counted, Bool.and_eq_true] at hcounted
    exact hcounted.1

end capture

/-- A capture into an empty Base directory that succeeds is exact just when the walk sees every entry of the Project, has the
descriptors to list what a pattern leaves out, and counts to less than 2^63. -/
theorem capture_exact (tree : ProjectTree) (hw : tree.WF)
    (hread : ∀ p n, tree.entries.get p = some n → n.isDir = true → n.readable = true) (policy : CapturePolicy)
    (base : HostPath) (h : Host) (hwf : h.tree.WF) (hs : Site h base) (hempty : ∀ q, q ≠ [] → h.tree.get (base ++ q) = none)
    (s : CaptureState) (hok : captureBaseState tree base policy h = (.ok (), s)) :
    ExactCapture tree policy base s ↔ WithinReach tree policy := by
  have himage : ∀ q, q ≠ [] → baseImage s.host base q = image tree policy q := by
    refine captureBaseState_image hw hwf hs hok (fun q h0 x hx => ?_)
    rw [baseImage, hempty q h0] at hx
    cases hx
  constructor
  · intro he
    refine ⟨he.searched hw hread hok himage, fun p hleft => ?_, Figure.lt_of_toInt_eq he.entryCount,
      Figure.lt_of_toInt_eq he.bytes, Figure.lt_of_toInt_eq he.excludedEntryCount, Figure.lt_of_toInt_eq he.excludedBytes⟩
    have hcounted := he.counted hw hread hok hleft
    rw [counted, Bool.and_eq_true, decide_eq_true_eq] at hcounted
    exact hcounted.2
  · exact fun hreach => hreach.exact hw hread hok himage

namespace ExactCaptureWitness

def host : Host := { tree := ⟨[([[98]], ⟨.dir, ⟨1, 493, 0, 0, 0⟩⟩)]⟩, nextIno := 3, now := 0, umask := 18 }

def root : SourceNode := { kind := .dir, device := 1, perm := 493 }

/-- A directory `d` with the files `x` and `y` in it. -/
def tree : ProjectTree :=
  { entries := ⟨[([[100], [120]], { kind := .file [1, 2], device := 1, perm := 420 }),
      ([[100], [121]], { kind := .file [3], device := 1, perm := 420 }),
      ([[100]], { kind := .dir, device := 1, perm := 493 })]⟩
    root := root
    path := [[112]] }

/-- The policy `x`. -/
def policy : CapturePolicy :=
  { present := true, sourceMode := 420, source := [120, 10], patterns := [{ text := [120], line := 1, glob := [120] }] }

/-- The same tree, where `d` has permissions 0444. -/
def unsearchable : ProjectTree :=
  { entries := ⟨[([[100], [120]], { kind := .file [1, 2], device := 1, perm := 420 }),
      ([[100]], { kind := .dir, device := 1, perm := 292, searchable := false })]⟩
    root := root
    path := [[112]] }

theorem tree_wf : tree.WF := ProjectTree.wf_of_entries (by decide) (by decide) (by simp [tree])

theorem unsearchable_wf : unsearchable.WF := ProjectTree.wf_of_entries (by decide) (by decide) (by simp [unsearchable])

theorem tree_readable : ∀ p n, tree.entries.get p = some n → n.isDir = true → n.readable = true := by
  intro p n hn _
  have hall : ∀ e ∈ tree.entries.entries, e.2.readable = true := by decide
  exact hall _ (PathMap.mem_entries_of_get hn)

theorem host_wf : host.tree.WF := Tree.wf_of_entries (by decide)

theorem host_site : Site host [[98]] := by
  refine ⟨by decide, fun a ha n hn => ?_⟩
  have hall : ∀ e ∈ host.tree.entries, e.2.isDir = true := by decide
  exact hall _ (PathMap.mem_entries_of_get hn)

theorem host_empty : ∀ q, q ≠ [] → host.tree.get ([[98]] ++ q) = none := by
  intro q hq
  simp [host, PathMap.get, PathMap.lookupIn, Ne.symm hq]

theorem tree_withinReach : WithinReach tree policy where
  searched := by
    refine searched_iff.mpr fun p hp hf => ?_
    have hall : ∀ q ∈ tree.entries.keys, reached tree q = true := by decide +kernel
    exact hall p (PathMap.mem_keys.mpr (inProject_isSome hp).2)
  descriptors p hleft := by
    rw [leftOut, Bool.and_eq_true, Bool.and_eq_true] at hleft
    have hall : ∀ q ∈ tree.entries.keys, q.length ≤ tree.limits.descriptors := by decide +kernel
    exact hall p (PathMap.mem_keys.mpr (inProject_isSome hleft.1.1).2)
  entryCount := by decide +kernel
  bytes := by decide +kernel
  excludedEntryCount := by decide +kernel
  excludedBytes := by decide +kernel

/-- The file that a pattern excludes is counted, and the rest is there. -/
theorem captures_all : ExactCapture tree policy [[98]] (captureBaseState tree [[98]] policy host).2 :=
  (capture_exact tree tree_wf tree_readable policy [[98]] host host_wf host_site host_empty
    (captureBaseState tree [[98]] policy host).2 (Prod.ext (by decide +kernel) rfl)).mpr tree_withinReach

/-- The capture of a directory that may be listed but not searched succeeds without what is in it. -/
theorem passes_over : unsearchable.WF ∧ (captureBaseState unsearchable [[98]] {} host).1 = .ok () ∧
    captured unsearchable {} [[100], [120]] = true ∧
    (captureBaseState unsearchable [[98]] {} host).2.host.tree.get ([[98]] ++ [[100], [120]]) = none ∧
    ¬ExactCapture unsearchable {} [[98]] (captureBaseState unsearchable [[98]] {} host).2 := by
  have hcaptured : captured unsearchable {} [[100], [120]] = true := by decide +kernel
  have hmissing : (captureBaseState unsearchable [[98]] {} host).2.host.tree.get ([[98]] ++ [[100], [120]]) = none := by
    decide +kernel
  refine ⟨unsearchable_wf, by decide +kernel, hcaptured, hmissing, fun he => ?_⟩
  have hc := he.contains [[100], [120]] (by simp)
  rw [hmissing, hcaptured] at hc
  cases hc

end ExactCaptureWitness

end TribiosVfs

import TribiosVfs.Lemmas.Capture

/-!
# Which readable Projects can be captured

The capture gives a directory the mode it has in the Project before it captures what lies in it. Into an empty Base directory, with
everything in the Project readable, a capture succeeds just when every directory that it puts something in has the owner's write and
search bits, no path it names in the Base directory is too long, and it never runs out of descriptors.
-/

namespace TribiosVfs

/-- The owner may create entries in the directory above: the Base directory, or a captured directory with its mode in the Project. -/
def mayFill (tree : ProjectTree) (base : HostPath) (h : Host) (p : RelPath) : Bool :=
  if p.dropLast = [] then h.maySearch base && h.mayWrite base
  else (tree.entries.get p.dropLast).any (fun d => d.perm.testBit 6 && d.perm.testBit 7)

/-- There are descriptors for the copy of an entry: two for a file and one for a directory, beside those of the directories above. -/
def mayOpen (tree : ProjectTree) (p : RelPath) : Bool :=
  match tree.entries.get p with
  | none => true
  | some n => match n.kind with
    | .file _ => tree.opens (p.length + 1)
    | .dir => tree.opens p.length
    | _ => true

/-- The Project and the Base directory have paths that a call takes, and there is a descriptor. Every directory that something is
captured in has the owner's write and search bits, the copies have paths that a call takes, and there are descriptors for them. -/
structure Fillable (tree : ProjectTree) (policy : CapturePolicy) (base : HostPath) (h : Host) : Prop where
  source : tree.takes [] = true
  target : tree.limits.takes base = true
  opens : tree.opens 0 = true
  fills : ∀ p, p ≠ [] → (image tree policy p).isSome → mayFill tree base h p = true ∧ tree.limits.takes (base ++ p) = true
  copies : ∀ p, selected tree policy p = true → mayOpen tree p = true

namespace CapturableAux

/-- What the copy of a selected entry takes. -/
def mayCopy (tree : ProjectTree) (base : HostPath) (h : Host) (p : RelPath) : Prop :=
  mayFill tree base h p = true ∧ tree.limits.takes (base ++ p) = true ∧ mayOpen tree p = true

/-! ## Creating an entry -/

theorem testBit_permBits {mode i : Nat} (hi : i < 12) : (permBits mode).testBit i = mode.testBit i := by
  rw [permBits, show (4096 : Nat) = 2 ^ 12 from rfl, Nat.testBit_mod_two_pow]
  simp [hi]

section create

variable {h h' : Host} (hw : h.tree.WF) {p : HostPath} (hne : p ≠ []) (hp : Ordinary p) (hd : isDirAt h.tree p.dropLast = true)
  (hn : h.tree.get p = none)

include hw hp hd hn

theorem lookAt_creates {follow : Bool} {f : HostPath → Except Errno Unit × Host}
    (hf : f p = if h.mayCreate p then (.ok (), h') else (.error accessDenied, h)) :
    (h.lookAt follow p f).1 = .ok () ↔ h.mayCreate p = true := by
  rw [lookAt_real hw hp hd (fun _ n hm => by rw [hn] at hm; cases hm), hf]
  unfold Host.mayCreate
  cases h.maySearch p.dropLast <;> cases h.mayWrite p.dropLast <;> simp

include hne

theorem makeDirectory_absent : (h.makeDirectory p).1 = .ok () ↔ h.mayCreate p = true := by
  refine @lookAt_creates _ (h.addEntry p .dir (h.directoryPerm p.dropLast 511)) hw _ hp hd hn _ _ ?_
  rw [nodeAt_of_ne hne, hn]

theorem makeSymlink_absent {target : Bytes} (ht : cStr target ≠ []) :
    (h.makeSymlink target p).1 = .ok () ↔ h.mayCreate p = true := by
  rw [Host.makeSymlink, if_neg ht]
  refine @lookAt_creates _ (h.addEntry p (.symlink (cStr target)) 511) hw _ hp hd hn _ _ ?_
  rw [nodeAt_of_ne hne, hn]

theorem writeWhole_absent {data : Bytes} {perm : Nat} : (h.writeWhole p data perm).1 = .ok () ↔ h.mayCreate p = true := by
  refine @lookAt_creates _ (h.addEntry p (.file data) perm) hw _ hp hd hn _ _ ?_
  rw [nodeAt_of_ne hne, hn]

end create

/-! ## A Base directory that is being filled -/

/-- The paths done show what they are to show, and nothing else is there. -/
structure Blank (tree : ProjectTree) (policy : CapturePolicy) (base : HostPath) (h₀ : Host) (done : RelPath → Prop) (h : Host) :
    Prop where
  wf : h.tree.WF
  dir : isDirAt h.tree base = true
  root : baseImage h base [] = baseImage h₀ base []
  shown : ∀ q, q ≠ [] → done q → baseImage h base q = image tree policy q
  blank : ∀ q, q ≠ [] → ¬done q → h.tree.get (base ++ q) = none

section fill

variable {tree : ProjectTree} {policy : CapturePolicy} {base : HostPath} {h₀ h h' : Host} {done done' : RelPath → Prop}

theorem Blank.skip (hb : Blank tree policy base h₀ done h) (hsub : ∀ q, done q → done' q)
    (hnone : ∀ q, q ≠ [] → done' q → ¬done q → image tree policy q = none) : Blank tree policy base h₀ done' h where
  wf := hb.wf
  dir := hb.dir
  root := hb.root
  shown q h0 hq := by
    by_cases hd : done q
    · exact hb.shown q h0 hd
    · rw [hnone q h0 hq hd, baseImage, hb.blank q h0 hd]
      rfl
  blank q h0 hq := hb.blank q h0 (fun hd => hq (hsub q hd))

theorem Blank.write (hb : Blank tree policy base h₀ done h) {child : RelPath} (h0 : child ≠ []) {x : Contents × Nat}
    (hw : Written base child x h h') (hx : image tree policy child = some x) :
    Blank tree policy base h₀ (fun q => done q ∨ q = child) h' where
  wf := hw.wf
  dir := hw.dirs base hb.dir
  root := by
    rw [hw.shows, if_neg (Ne.symm h0)]
    exact hb.root
  shown q hq0 hq := by
    rw [hw.shows]
    by_cases hc : q = child
    · rw [if_pos hc, hc, hx]
    · rw [if_neg hc]
      exact hb.shown q hq0 (hq.resolve_right hc)
  blank q hq0 hq := by
    rw [not_or] at hq
    have hs := hw.shows q
    rw [if_neg hq.2, baseImage, baseImage, hb.blank q hq0 hq.1, Option.map_none] at hs
    exact Option.map_eq_none_iff.mp hs

/-- What the owner may do in a directory is read off what the Base directory shows there. -/
theorem permits_of_image {h : Host} {p : HostPath} {c : Contents} {perm : Nat} (h0 : p ≠ [])
    (hp : (h.tree.get p).map Node.image = some (c, perm)) :
    h.maySearch p = perm.testBit 6 ∧ h.mayWrite p = perm.testBit 7 := by
  obtain ⟨n, hn, hi⟩ := Option.map_eq_some_iff.mp hp
  have hperm : n.attrs.perm = perm := congrArg Prod.snd hi
  rw [Host.maySearch, Host.mayWrite, nodeAt_of_ne h0, hn]
  dsimp only
  rw [hperm]
  exact ⟨rfl, rfl⟩

theorem Blank.root_permits (hb : Blank tree policy base h₀ done h) (hd : isDirAt h₀.tree base = true) :
    h.maySearch base = h₀.maySearch base ∧ h.mayWrite base = h₀.mayWrite base := by
  by_cases h0 : base = []
  · subst h0
    exact ⟨rfl, rfl⟩
  · obtain ⟨n, hn, -⟩ := (isDirAt_iff h0).mp hd
    have hroot := hb.root
    unfold baseImage at hroot
    rw [List.append_nil, hn] at hroot
    have hp := permits_of_image h0 hroot
    have hp₀ := @permits_of_image h₀ _ n.contents n.attrs.perm h0 (by rw [hn]; rfl)
    exact ⟨hp.1.trans hp₀.1.symm, hp.2.trans hp₀.2.symm⟩

/-- In the directory the walk stands in an entry can be created just when its mode lets the owner. -/
theorem Blank.fill (hb : Blank tree policy base h₀ done h) (hd₀ : isDirAt h₀.tree base = true) {relative : RelPath}
    {dir : SourceNode} (hopen : Opened tree policy relative dir) (hdone : relative ≠ [] → done relative ∧ dir.isDir = true)
    (name : Name) : isDirAt h.tree (base ++ relative) = true ∧
      h.mayCreate (base ++ (relative ++ [name])) = mayFill tree base h₀ (relative ++ [name]) := by
  have hparent : (base ++ (relative ++ [name])).dropLast = base ++ relative := by
    rw [← List.append_assoc, List.dropLast_concat]
  rw [Host.mayCreate, hparent, mayFill, List.dropLast_concat]
  by_cases h0 : relative = []
  · subst h0
    rw [List.append_nil, if_pos rfl, (hb.root_permits hd₀).1, (hb.root_permits hd₀).2]
    exact ⟨hb.dir, rfl⟩
  · obtain ⟨hdn, hdir⟩ := hdone h0
    obtain ⟨hsel, hst⟩ := hopen.resolve_left (fun hc => h0 hc.1)
    have hget := lstat_get hst
    have hk : dir.kind = .dir := by
      unfold SourceNode.isDir at hdir
      cases hk : dir.kind <;> simp [hk] at hdir
      rfl
    have himage : image tree policy relative = some (.dir, permBits dir.perm) := by
      rw [image_of_selected hsel hget, SourceNode.image, hk]
    have hshow := (hb.shown relative h0 hdn).trans himage
    have hne : base ++ relative ≠ [] := by simp [h0]
    obtain ⟨hs, hwr⟩ := permits_of_image hne hshow
    rw [testBit_permBits (by omega)] at hs hwr
    rw [if_neg h0, hget, Option.any_some, hs, hwr]
    refine ⟨?_, rfl⟩
    obtain ⟨n, hn, hi⟩ := Option.map_eq_some_iff.mp hshow
    exact (isDirAt_iff hne).mpr ⟨n, hn, Node.isDir_of_contents (congrArg Prod.fst hi)⟩

end fill

/-! ## The walk -/

section walk

variable {tree : ProjectTree} {policy : CapturePolicy} {base : HostPath} {h₀ : Host} {done : RelPath → Prop}

/-- A step succeeds just when everything beneath can be created, and then it is done. -/
def Decides (tree : ProjectTree) (policy : CapturePolicy) (base : HostPath) (h₀ : Host) (done beneath : RelPath → Prop)
    (f : CaptureState → Captured) : Prop :=
  ∀ s, Blank tree policy base h₀ done s.host →
    ((f s).1 = .ok () ↔ ∀ q, beneath q → selected tree policy q = true → mayCopy tree base h₀ q) ∧
      ((f s).1 = .ok () → Blank tree policy base h₀ (fun q => done q ∨ beneath q) (f s).2.host)

/-- What is beneath is new, and the policy file is done. -/
structure Fresh (tree : ProjectTree) (policy : CapturePolicy) (done beneath : RelPath → Prop) : Prop where
  fresh : ∀ q, beneath q → selected tree policy q = true → ¬done q
  policyFile : policy.present = true → done [kCapturePolicyFileName]

/-- A step that leaves the host as it is, where nothing beneath is selected. -/
theorem Decides.nothing {beneath : RelPath → Prop} (hfresh : Fresh tree policy done beneath)
    (hn : ∀ q, beneath q → selected tree policy q = false) {f : CaptureState → Captured}
    (hf : ∀ s, (f s).1 = .ok () ∧ (f s).2.host = s.host) : Decides tree policy base h₀ done beneath f := by
  intro s hb
  refine ⟨⟨fun _ q hq hs => ?_, fun _ => (hf s).1⟩, fun _ => ?_⟩
  · rw [hn q hq] at hs
    cases hs
  · rw [(hf s).2]
    refine hb.skip (fun _ => Or.inl) (fun q _ hq hd => ?_)
    exact image_eq_none (hn q (hq.resolve_left hd)) (fun hpr he => hd (he ▸ hfresh.policyFile hpr))

theorem andThen_fst {r : Captured} {f : CaptureState → Captured} : (r.andThen f).1 = .ok () ↔ r.1 = .ok () ∧ (f r.2).1 = .ok () := by
  obtain ⟨r, s⟩ := r
  cases r with
  | ok u => simp [Captured.andThen]
  | error e => simp [Captured.andThen]

theorem andThen_snd {r : Captured} {f : CaptureState → Captured} (h : r.1 = .ok ()) : (r.andThen f).2 = (f r.2).2 := by
  obtain ⟨r, s⟩ := r
  cases r with
  | ok u => rfl
  | error e => cases h

/-- The loop over the children of a directory. -/
theorem decides_each {relative : RelPath} {f : Name → CaptureState → Captured} {names : List Name} (hnd : names.Nodup)
    (hf : ∀ n ∈ names, ∀ done', (∀ q, done q → done' q) → Fresh tree policy done' (fun q => relative ++ [n] <+: q) →
      Decides tree policy base h₀ done' (fun q => relative ++ [n] <+: q) (f n)) :
    Fresh tree policy done (fun q => ∃ n ∈ names, relative ++ [n] <+: q) →
      Decides tree policy base h₀ done (fun q => ∃ n ∈ names, relative ++ [n] <+: q) (captureEach f names) := by
  induction names generalizing done with
  | nil =>
    intro hfresh
    exact Decides.nothing hfresh (fun q hq => by simp at hq) (fun s => ⟨rfl, rfl⟩)
  | cons n names ih =>
    intro hfresh s hb
    obtain ⟨hnot, hnd'⟩ := List.nodup_cons.mp hnd
    obtain ⟨hiff, hdo⟩ := hf n List.mem_cons_self done (fun _ hq => hq)
      ⟨fun q hq => hfresh.fresh q ⟨n, List.mem_cons_self, hq⟩, hfresh.policyFile⟩ s hb
    have hfresh' : Fresh tree policy (fun q => done q ∨ relative ++ [n] <+: q) (fun q => ∃ m ∈ names, relative ++ [m] <+: q) := by
      refine ⟨?_, fun hpr => Or.inl (hfresh.policyFile hpr)⟩
      rintro q ⟨m, hm, t, rfl⟩ hs (hd | ⟨t', he⟩)
      · exact hfresh.fresh _ ⟨m, List.mem_cons_of_mem _ hm, t, rfl⟩ hs hd
      · simp only [List.append_assoc, List.singleton_append, List.append_cancel_left_eq, List.cons.injEq] at he
        exact hnot (he.1 ▸ hm)
    have hrest := ih hnd' (fun m hm done' hsub => hf m (List.mem_cons_of_mem _ hm) done' (fun q hq => hsub q (Or.inl hq))) hfresh'
    rw [captureEach]
    constructor
    · rw [andThen_fst]
      constructor
      · rintro ⟨h₁, h₂⟩ q ⟨m, hm, hq⟩ hs
        rcases List.mem_cons.mp hm with rfl | hm
        · exact hiff.mp h₁ q hq hs
        · exact (hrest _ (hdo h₁)).1.mp h₂ q ⟨m, hm, hq⟩ hs
      · intro hall
        have h₁ := hiff.mpr (fun q hq => hall q ⟨n, List.mem_cons_self, hq⟩)
        refine ⟨h₁, (hrest _ (hdo h₁)).1.mpr ?_⟩
        rintro q ⟨m, hm, hq⟩
        exact hall q ⟨m, List.mem_cons_of_mem _ hm, hq⟩
    · intro hok
      obtain ⟨h₁, h₂⟩ := andThen_fst.mp hok
      rw [andThen_snd h₁]
      refine ((hrest _ (hdo h₁)).2 h₂).skip ?_ ?_
      · rintro q ((hd | hq) | ⟨m, hm, hq⟩)
        · exact Or.inl hd
        · exact Or.inr ⟨n, List.mem_cons_self, hq⟩
        · exact Or.inr ⟨m, List.mem_cons_of_mem _ hm, hq⟩
      · rintro q - (hd | ⟨m, hm, hq⟩) hnot'
        · exact absurd (Or.inl (Or.inl hd)) hnot'
        · rcases List.mem_cons.mp hm with rfl | hm
          · exact absurd (Or.inl (Or.inr hq)) hnot'
          · exact absurd (Or.inr ⟨m, hm, hq⟩) hnot'

/-- A write succeeds where its path is one that a call takes and the call succeeds, and leaves the host as the call does. -/
theorem write_iff {child : RelPath} {s : CaptureState} {f : Host → HostPath → Except Errno Unit × Host} {e : Errno → CaptureError} :
    ((CaptureWalk.write ⟨tree, some base, policy⟩ child s f e).1 = .ok () ↔
        tree.limits.takes (base ++ child) = true ∧ (f s.host (base ++ child)).1 = .ok ()) ∧
      ((CaptureWalk.write ⟨tree, some base, policy⟩ child s f e).1 = .ok () →
        (CaptureWalk.write ⟨tree, some base, policy⟩ child s f e).2.host = (f s.host (base ++ child)).2) := by
  unfold CaptureWalk.write
  dsimp only
  cases ht : tree.limits.takes (base ++ child) with
  | false => simp
  | true =>
    cases hf : f s.host (base ++ child) with
    | mk r h' => cases r <;> simp

theorem opens_of_le {m n : Nat} (h : tree.opens n = true) (hle : m ≤ n) : tree.opens m = true := by
  rw [ProjectTree.opens, decide_eq_true_eq] at h ⊢
  omega

/-- A readable file is copied just when there are two descriptors and the write succeeds. -/
theorem copyFile_iff {child : RelPath} {st : SourceNode} {data : Bytes} {h : Host} {p : HostPath} (hr : st.readable = true) :
    (copyFile tree child st data h p).1 = .ok () ↔
      tree.opens (child.length + 1) = true ∧ (h.writeWhole p data (permBits st.perm)).1 = .ok () := by
  unfold copyFile
  rw [hr]
  cases ho : tree.opens (child.length + 1) with
  | false => cases tree.opens child.length <;> simp
  | true => simp [opens_of_le ho (Nat.le_succ _)]

section kept

variable (hw : tree.WF) (hb : Ordinary base) (hd₀ : isDirAt h₀.tree base = true)
  (hfiles : ∀ p n data, tree.entries.get p = some n → n.kind = .file data → n.readable = true)

include hw hb hd₀ hfiles

/-- What the capture of a directory is to decide, once there is a descriptor for it. -/
def DecidesDirectory (tree : ProjectTree) (policy : CapturePolicy) (base : HostPath) (h₀ : Host) (fuel : Nat)
    (recurse : RelPath → SourceNode → CaptureState → Captured) : Prop :=
  ∀ relative dir done, Opened tree policy relative dir → (relative ≠ [] → done relative ∧ dir.isDir = true) →
    tree.entries.depth < relative.length + fuel → Fresh tree policy done (fun q => relative <+: q ∧ q ≠ relative) →
    (∀ s, (recurse relative dir s).1 = .ok () → tree.opens relative.length = true) ∧ (tree.opens relative.length = true →
      Decides tree policy base h₀ done (fun q => relative <+: q ∧ q ≠ relative) (recurse relative dir))

/-- The copy of a selected entry succeeds just when it, and what lies beneath it, can be created. -/
theorem kept_decides {fuel : Nat} {recurse : RelPath → SourceNode → CaptureState → Captured}
    (hrec : DecidesDirectory tree policy base h₀ fuel recurse) {relative : RelPath} {dir : SourceNode}
    (hopen : Opened tree policy relative dir) (hdone : relative ≠ [] → done relative ∧ dir.isDir = true) {name : Name}
    {st : SourceNode} (hsel : selected tree policy (relative ++ [name]) = true) (hst : tree.lstat (relative ++ [name]) = some st)
    (hdepth : tree.entries.depth < relative.length + (fuel + 1))
    (hfresh : Fresh tree policy done (fun q => relative ++ [name] <+: q)) :
    Decides tree policy base h₀ done (fun q => relative ++ [name] <+: q)
      (captureKept ⟨tree, some base, policy⟩ recurse (relative ++ [name]) st) := by
  intro s hblank
  generalize hchild : relative ++ [name] = child at *
  have h0 : child ≠ [] := (selected_iff.mp hsel).1
  have hget := lstat_get hst
  have hord : Ordinary (base ++ child) := hb.append (hw.ordinary child (by rw [hget]; rfl))
  have hne : base ++ child ≠ [] := by simp [h0]
  have habsent := hblank.blank child h0 (hfresh.fresh child (List.prefix_refl _) hsel)
  obtain ⟨hparent, hfill⟩ := hblank.fill hd₀ hopen hdone name
  have hdir : isDirAt s.host.tree (base ++ child).dropLast = true := by
    rw [← hchild, ← List.append_assoc, List.dropLast_concat]
    exact hparent
  rw [hchild] at hfill
  have himage : image tree policy child = some st.image := image_of_selected hsel hget
  have hnolink : ∀ n, s.host.tree.get (base ++ child) = some n → n.isLnk = false := by
    intro n hn
    rw [habsent] at hn
    cases hn
  -- an entry with nothing beneath it
  have hleaf : ∀ (r : Captured), st.isDir = false → (r.1 = .ok () ↔ mayCopy tree base h₀ child) →
      (r.1 = .ok () → Written base child st.image s.host r.2.host) →
      (r.1 = .ok () ↔ ∀ q, child <+: q → selected tree policy q = true → mayCopy tree base h₀ q) ∧
        (r.1 = .ok () → Blank tree policy base h₀ (fun q => done q ∨ child <+: q) r.2.host) := by
    intro r hd hiff hwr
    refine ⟨?_, fun hok => ?_⟩
    · rw [hiff]
      constructor
      · intro hc q hq hs
        by_cases hqc : q = child
        · rw [hqc]
          exact hc
        · rw [not_selected_under_leaf hw h0 hget hd hq hqc] at hs
          cases hs
      · intro hall
        exact hall child (List.prefix_refl _) hsel
    · refine (hblank.write h0 (hwr hok) himage).skip ?_ ?_
      · rintro q (hq | rfl)
        · exact Or.inl hq
        · exact Or.inr (List.prefix_refl _)
      · rintro q hq0 (hq | hq) hnot
        · exact absurd (Or.inl hq) hnot
        · rw [not_or] at hnot
          exact image_eq_none (not_selected_under_leaf hw h0 hget hd hq hnot.2)
            (fun hpr he => hnot.1 (he ▸ hfresh.policyFile hpr))
  unfold captureKept
  cases hk : st.kind with
  | special =>
    obtain ⟨m, hm, -, hcap, -⟩ := admits_iff.mp ((selected_iff.mp hsel).2.2 child (List.prefix_refl child) h0)
    rw [hst, Option.some.injEq] at hm
    rw [← hm, SourceNode.isCapturable, hk] at hcap
    cases hcap
  | symlink t =>
    obtain ⟨ht0, ht⟩ := hw.target child st t hget hk
    obtain ⟨hiff, hhost⟩ := @write_iff tree policy base child s (fun h p => h.makeSymlink t p) (.cannotRecreateSymlink child)
    have hopens : mayOpen tree child = true := by rw [mayOpen, hget]; simp only [hk]
    refine hleaf _ (by rw [SourceNode.isDir, hk]) ?_ (fun hok => ?_)
    · rw [hiff, makeSymlink_absent hblank.wf hne hord hdir habsent (by rw [ht]; exact ht0), hfill, mayCopy, hopens]
      exact ⟨fun h => ⟨h.2, h.1, rfl⟩, fun h => ⟨h.2.1, h.1⟩⟩
    · have hwr := symlink_written hblank.wf h0 hord hdir (Prod.ext (hiff.mp hok).2 rfl)
      rw [SourceNode.image, hk, hhost hok]
      rwa [ht] at hwr
  | file data =>
    obtain ⟨hiff, hhost⟩ := @write_iff tree policy base child s (copyFile tree child st data) (.cannotCopy child)
    rw [copyFile_iff (hfiles child st data hget hk)] at hiff
    have hopens : mayOpen tree child = tree.opens (child.length + 1) := by rw [mayOpen, hget]; simp only [hk]
    refine hleaf _ (by rw [SourceNode.isDir, hk]) ?_ (fun hok => ?_)
    · rw [andThen_fst, hiff, writeWhole_absent hblank.wf hne hord hdir habsent, hfill, mayCopy, hopens]
      exact ⟨fun h => ⟨h.1.2.2, h.1.1, h.1.2.1⟩, fun h => ⟨⟨h.2.1, h.2.2, h.1⟩, rfl⟩⟩
    · have h₁ := (andThen_fst.mp hok).1
      have hcopy : copyFile tree child st data s.host (base ++ child) =
          (.ok (), (copyFile tree child st data s.host (base ++ child)).2) :=
        Prod.ext ((copyFile_iff (hfiles child st data hget hk)).mpr (hiff.mp h₁).2) rfl
      have hwr := file_written hblank.wf h0 hord hdir st.perm hnolink (copyFile_ok hcopy)
      rw [andThen_snd h₁, SourceNode.image, hk]
      dsimp only [CaptureWalk.chmod]
      rw [hhost h₁]
      exact hwr
  | dir =>
    obtain ⟨hiff, hhost⟩ := @write_iff tree policy base child s (fun h p => h.makeDirectory p) (.cannotCreate child)
    have hopens : mayOpen tree child = tree.opens child.length := by rw [mayOpen, hget]; simp only [hk]
    have hmake : (CaptureWalk.write ⟨tree, some base, policy⟩ child s (fun h p => h.makeDirectory p) (.cannotCreate child)).1 = .ok () ↔
        tree.limits.takes (base ++ child) = true ∧ mayFill tree base h₀ child = true := by
      rw [hiff, makeDirectory_absent hblank.wf hne hord hdir habsent, hfill]
    -- the directory is made and given its mode, and then what lies beneath it is captured
    have hthen : (CaptureWalk.write ⟨tree, some base, policy⟩ child s (fun h p => h.makeDirectory p) (.cannotCreate child)).1 = .ok () →
        Blank tree policy base h₀ (fun q => done q ∨ q = child) (CaptureWalk.chmod ⟨tree, some base, policy⟩ child st.perm
          (CaptureWalk.write ⟨tree, some base, policy⟩ child s (fun h p => h.makeDirectory p) (.cannotCreate child)).2).host := by
      intro h₁
      have hwr := directory_written hblank.wf h0 hord hdir st.perm hnolink (Prod.ext (hiff.mp h₁).2 rfl)
      refine hblank.write h0 ?_ (himage.trans (by rw [SourceNode.image, hk]))
      dsimp only [CaptureWalk.chmod]
      rw [hhost h₁]
      exact hwr
    have hfresh' : Fresh tree policy (fun q => done q ∨ q = child) (fun q => child <+: q ∧ q ≠ child) := by
      refine ⟨?_, fun hpr => Or.inl (hfresh.policyFile hpr)⟩
      rintro q ⟨hq, hqc⟩ hs (hd | he)
      · exact hfresh.fresh q hq hs hd
      · exact hqc he
    have hlen : child.length = relative.length + 1 := by
      rw [← hchild, List.length_append, List.length_singleton]
    obtain ⟨hneeds, hbelow⟩ := hrec child st (fun q => done q ∨ q = child) (Or.inr ⟨hsel, hst⟩)
      (fun _ => ⟨Or.inr rfl, by rw [SourceNode.isDir, hk]⟩) (by omega) hfresh'
    constructor
    · rw [andThen_fst]
      constructor
      · rintro ⟨hc, hrest⟩ q hq hs
        have ho := hneeds _ hrest
        by_cases hqc : q = child
        · rw [hqc]
          exact ⟨(hmake.mp hc).2, (hmake.mp hc).1, hopens.trans ho⟩
        · exact (hbelow ho _ (hthen hc)).1.mp hrest q ⟨hq, hqc⟩ hs
      · intro hall
        obtain ⟨hf, ht, ho⟩ := hall child (List.prefix_refl _) hsel
        have hc := hmake.mpr ⟨ht, hf⟩
        exact ⟨hc, (hbelow (hopens.symm.trans ho) _ (hthen hc)).1.mpr (fun q hq hs => hall q hq.1 hs)⟩
    · intro hok
      obtain ⟨h₁, h₂⟩ := andThen_fst.mp hok
      rw [andThen_snd h₁]
      refine ((hbelow (hneeds _ h₂) _ (hthen h₁)).2 h₂).skip ?_ ?_
      · rintro q ((hq | rfl) | hq)
        · exact Or.inl hq
        · exact Or.inr (List.prefix_refl _)
        · exact Or.inr hq.1
      · rintro q - (hq | hq) hnot
        · exact absurd (Or.inl (Or.inl hq)) hnot
        · by_cases he : q = child
          · exact absurd (Or.inl (Or.inr he)) hnot
          · exact absurd (Or.inr ⟨hq, he⟩) hnot

/-- One entry of the loop. -/
theorem entry_decides {fuel : Nat} {recurse : RelPath → SourceNode → CaptureState → Captured}
    (hrec : DecidesDirectory tree policy base h₀ fuel recurse) {relative : RelPath} {dir : SourceNode}
    (hopen : Opened tree policy relative dir) (hdone : relative ≠ [] → done relative ∧ dir.isDir = true) (name : Name)
    (hdepth : tree.entries.depth < relative.length + (fuel + 1))
    (hfresh : Fresh tree policy done (fun q => relative ++ [name] <+: q)) :
    Decides tree policy base h₀ done (fun q => relative ++ [name] <+: q)
      (captureEntry ⟨tree, some base, policy⟩ recurse relative dir name) := by
  have hpass : selected tree policy (relative ++ [name]) = false →
      (∀ s, (captureEntry ⟨tree, some base, policy⟩ recurse relative dir name s).1 = .ok () ∧
        (captureEntry ⟨tree, some base, policy⟩ recurse relative dir name s).2.host = s.host) →
      Decides tree policy base h₀ done (fun q => relative ++ [name] <+: q)
        (captureEntry ⟨tree, some base, policy⟩ recurse relative dir name) :=
    fun hns => Decides.nothing hfresh (fun q hq => selected_under_child _ _ hq hns)
  obtain ⟨hr, he⟩ | ⟨st, -, -, hbars, he⟩ | ⟨st, hsel, hst, he⟩ := @captureEntry_cases _ _ _ (some base) _ hopen recurse name
  · exact hpass (by rw [selected_eq, hr]; rfl) (fun s => by rw [he]; exact ⟨rfl, rfl⟩)
  · refine hpass (by rw [selected_eq, barred_of_bars hbars, Bool.not_true, Bool.and_false]) (fun s => ?_)
    rw [he]
    exact ⟨rfl, rfl⟩
  · intro s hblank
    obtain ⟨hiff, hdo⟩ := kept_decides hw hb hd₀ hfiles hrec hopen hdone hsel hst hdepth hfresh s hblank
    rw [he, andThen_fst]
    refine ⟨(and_iff_left rfl).trans hiff, fun hok => ?_⟩
    rw [andThen_snd hok.1]
    exact hdo hok.1

/-- `capture_directory` succeeds just when everything selected beneath can be created; the induction is on the fuel, which is more
than the depth of what is beneath. -/
theorem directory_decides (hroot : tree.root.readable = true)
    (hdirs : ∀ p n, tree.entries.get p = some n → n.isDir = true → n.readable = true) (fuel : Nat) :
    DecidesDirectory tree policy base h₀ fuel (captureDirectory ⟨tree, some base, policy⟩ fuel) := by
  induction fuel with
  | zero =>
    intro relative dir done hopen _ hdepth _
    refine ⟨fun s hok => (by cases hok), fun _ => ?_⟩
    rcases hopen with ⟨rfl, -⟩ | ⟨-, hst⟩
    · exact absurd hdepth (Nat.not_lt_zero _)
    · have := PathMap.length_le_depth (m := tree.entries) (p := relative) (by rw [lstat_get hst]; rfl)
      omega
  | succ fuel ih =>
    intro relative dir done hopen hdone hdepth hfresh
    have hreadable : dir.readable = true := by
      rcases hopen with ⟨-, rfl⟩ | ⟨hsel, hst⟩
      · exact hroot
      · exact hdirs relative dir (lstat_get hst) (hdone (selected_iff.mp hsel).1).2
    have hsub : ∀ q, (∃ n ∈ tree.entries.names relative, relative ++ [n] <+: q) → relative <+: q ∧ q ≠ relative := by
      rintro q ⟨n, -, t, rfl⟩
      refine ⟨⟨[n] ++ t, by simp⟩, fun he => ?_⟩
      have := congrArg List.length he
      simp at this
    have heach := @decides_each _ policy base h₀ done relative
      (captureEntry ⟨tree, some base, policy⟩ (captureDirectory ⟨tree, some base, policy⟩ fuel) relative dir) _
      (tree.entries.nodup_names relative) (fun n _ done' hmore hfresh' => entry_decides hw hb hd₀ hfiles ih hopen
        (fun h0 => ⟨hmore relative (hdone h0).1, (hdone h0).2⟩) n hdepth hfresh') ⟨fun q hq => hfresh.fresh q (hsub q hq), hfresh.policyFile⟩
    -- a child that the directory does not list is no entry of the tree
    have hlisted : ∀ q, relative <+: q → q ≠ relative → selected tree policy q = true →
        ∃ n ∈ tree.entries.names relative, relative ++ [n] <+: q := by
      rintro q ⟨t, rfl⟩ hne hs
      obtain ⟨n, t, rfl⟩ := List.exists_cons_of_ne_nil (l := t) (by rintro rfl; simp at hne)
      have hchild : selected tree policy (relative ++ [n]) = true := selected_initial hs ⟨t, by simp⟩ (by simp)
      obtain ⟨m, -, hm⟩ := selected_get hchild
      exact ⟨n, PathMap.mem_names.mpr (by rw [hm]; rfl), t, by simp⟩
    refine ⟨fun s hok => ?_, fun ho s hblank => ?_⟩
    · by_contra ho
      rw [Bool.not_eq_true] at ho
      rw [captureDirectory, if_pos (by rw [ho]; simp)] at hok
      cases hok
    obtain ⟨hiff, hdo⟩ := heach s hblank
    rw [captureDirectory, if_neg (by rw [hreadable, ho]; simp)]
    constructor
    · rw [hiff]
      exact ⟨fun hall q hq hs => hall q (hlisted q hq.1 hq.2 hs) hs, fun hall q hq hs => hall q (hsub q hq) hs⟩
    · intro hok
      refine (hdo hok).skip ?_ ?_
      · rintro q (hq | hq)
        · exact Or.inl hq
        · exact Or.inr (hsub q hq)
      · rintro q - (hq | hq) hnot
        · exact absurd (Or.inl hq) hnot
        · refine image_eq_none ?_ (fun hpr he => hnot (Or.inl (he ▸ hfresh.policyFile hpr)))
          rw [Bool.eq_false_iff]
          intro hs
          exact hnot (Or.inr (hlisted q hq.1 hq.2 hs))

end kept

end walk

/-! ## The whole capture -/

section whole

variable {tree : ProjectTree} {policy : CapturePolicy} {base : HostPath} {h : Host}

/-- `create_directories` of a Base directory that is there. -/
theorem createBaseDirectories_present (hwf : h.tree.WF) (hs : Site h base) (hd : isDirAt h.tree base = true) :
    createBaseDirectories ⟨h, {}⟩ base.inits = (.ok (), ⟨h, {}⟩) := by
  have hdirs : ∀ p ∈ base.inits, h.ensureDirectory p = (.ok (), h) := by
    intro p hp
    have hpb := (List.mem_inits p base).mp hp
    have hpd : isDirAt h.tree p = true := hwf.isDirAt_initial hd hpb
    by_cases h0 : p = []
    · subst h0
      rw [Host.ensureDirectory, resolve_real hwf Ordinary.nil (isDirAt_nil _) (fun _ n hn => by rw [hwf.get_nil] at hn; cases hn)]
      rfl
    · obtain ⟨n, hn, hdir⟩ := (isDirAt_iff h0).mp hpd
      rw [ensureDirectory_real hwf h0 (hs.ordinary.of_initial hpb) (hwf.isDirAt_initial hpd (List.dropLast_prefix p))
        (fun m hm => Node.isLnk_of_isDir (hs.dirs p hpb m hm)), hn]
      simp [hdir]
  have hall : ∀ ps : List HostPath, (∀ p ∈ ps, h.ensureDirectory p = (.ok (), h)) →
      createBaseDirectories ⟨h, {}⟩ ps = (.ok (), ⟨h, {}⟩) := by
    intro ps
    induction ps with
    | nil => intro _; rfl
    | cons p ps ih =>
      intro hps
      rw [createBaseDirectories, hps p List.mem_cons_self]
      exact ih (fun q hq => hps q (List.mem_cons_of_mem _ hq))
  exact hall _ hdirs

/-- The policy file is written just when it can be created. -/
theorem policyFile_decides (ho : tree.opens 0 = true) (hb : Ordinary base) (hd₀ : isDirAt h.tree base = true) {s : CaptureState}
    (hblank : Blank tree policy base h (fun _ => False) s.host) :
    ((writeCompiledPolicy ⟨tree, some base, policy⟩ s).1 = .ok () ↔ (policy.present = true →
        mayFill tree base h [kCapturePolicyFileName] = true ∧ tree.limits.takes (base ++ [kCapturePolicyFileName]) = true)) ∧
      ((writeCompiledPolicy ⟨tree, some base, policy⟩ s).1 = .ok () → Blank tree policy base h
        (fun q => policy.present = true ∧ q = [kCapturePolicyFileName]) (writeCompiledPolicy ⟨tree, some base, policy⟩ s).2.host) := by
  unfold writeCompiledPolicy
  simp only [ho, if_true]
  by_cases hpr : policy.present = true
  · rw [if_pos hpr]
    have hord : Ordinary (base ++ [kCapturePolicyFileName]) := hb.append (by decide)
    have hne : base ++ [kCapturePolicyFileName] ≠ [] := by simp
    have habsent := hblank.blank [kCapturePolicyFileName] (by simp) (fun hf => hf)
    obtain ⟨hparent, hfill⟩ := hblank.fill hd₀ (Or.inl ⟨rfl, rfl⟩) (fun h0 => absurd rfl h0) kCapturePolicyFileName
    rw [List.nil_append] at hfill
    have hdir : isDirAt s.host.tree (base ++ [kCapturePolicyFileName]).dropLast = true := by
      rw [List.dropLast_concat]
      rwa [List.append_nil] at hparent
    have hnolink : ∀ n, s.host.tree.get (base ++ [kCapturePolicyFileName]) = some n → n.isLnk = false := by
      intro n hn
      rw [habsent] at hn
      cases hn
    obtain ⟨hiff, hhost⟩ := @write_iff tree policy base [kCapturePolicyFileName] s
      (fun h p => h.writeWhole p policy.source (h.maskPerm 438)) .cannotWritePolicy
    have hmake := hiff.trans (and_congr_right' (writeWhole_absent hblank.wf hne hord hdir habsent))
    -- the mode of a file that was just made can be changed
    have hmode : (CaptureWalk.write ⟨tree, some base, policy⟩ [kCapturePolicyFileName] s
        (fun h p => h.writeWhole p policy.source (h.maskPerm 438)) .cannotWritePolicy).1 = .ok () → ∀ h',
        h' = (s.host.writeWhole (base ++ [kCapturePolicyFileName]) policy.source (s.host.maskPerm 438)).2 →
        (h'.changeMode (base ++ [kCapturePolicyFileName]) policy.sourceMode).1 = .ok () := by
      intro h₁ h' hh'
      obtain ⟨hs, ⟨n, hn, -⟩ | ⟨-, he⟩⟩ := writeWhole_ok hblank.wf hne hord hdir hnolink (Prod.ext (hiff.mp h₁).2 rfl)
      · rw [habsent] at hn
        cases hn
      · rw [hh'.trans he]
        refine (mode_written (addEntry_wf hblank.wf hne hord hdir habsent _ _) (by simp) hord
          (isDirAt_addEntry hne _ _ habsent hdir) policy.sourceMode
          ((addEntry_get s.host hne _ _ _).trans (if_pos rfl)) rfl ?_).1
        rw [maySearch_addEntry hne _ _ (dropLast_ne_self hne)]
        exact hs
    have hsecond := fun s₁ => @write_iff tree policy base [kCapturePolicyFileName] s₁
      (fun h p => h.changeMode p policy.sourceMode) .cannotPreservePolicy
    constructor
    · rw [andThen_fst, andThen_fst, hmake, hfill]
      constructor
      · rintro ⟨⟨hc, -⟩, -⟩ _
        exact hc.symm
      · intro hc
        have h₁ := hmake.mpr ⟨(hc hpr).2, hfill.trans (hc hpr).1⟩
        exact ⟨⟨(hc hpr).symm, (hsecond _).1.mpr ⟨(hc hpr).2, hmode h₁ _ (hhost h₁)⟩⟩, rfl⟩
    · intro hok
      obtain ⟨h₁₂, -⟩ := andThen_fst.mp hok
      obtain ⟨h₁, h₂⟩ := andThen_fst.mp h₁₂
      have himage : image tree policy [kCapturePolicyFileName] = some (.file policy.source, permBits policy.sourceMode) :=
        if_pos ⟨hpr, rfl⟩
      have hwr := file_written hblank.wf (by simp) hord hdir policy.sourceMode hnolink (Prod.ext (hiff.mp h₁).2 rfl)
      rw [andThen_snd h₁₂, andThen_snd h₁]
      dsimp only
      rw [(hsecond _).2 h₂, hhost h₁]
      refine (hblank.write (by simp) hwr himage).skip (fun q hq => ⟨hpr, hq.resolve_left id⟩)
        (fun q _ hq hnot => absurd (Or.inr hq.2) hnot)
  · rw [if_neg hpr]
    refine ⟨⟨fun _ h => absurd h hpr, fun _ => rfl⟩, fun _ => ?_⟩
    exact hblank.skip (fun _ hf => hf.elim) (fun q _ hq _ => absurd hq.1 hpr)

end whole

end CapturableAux

open CapturableAux

/-- A Project whose directories may be read and searched and whose files may be read is captured into an empty Base directory just
when every directory that something is captured in has the owner's write and search bits, the paths are not too long and there are
descriptors for the walk. -/
theorem capture_succeeds_iff (tree : ProjectTree) (hw : tree.WF)
    (hroot : tree.root.isDir = true ∧ tree.root.readable = true ∧ tree.root.searchable = true)
    (hdirs : ∀ p n, tree.entries.get p = some n → n.isDir = true → n.readable = true ∧ n.searchable = true)
    (hfiles : ∀ p n data, tree.entries.get p = some n → n.kind = .file data → n.readable = true) (policy : CapturePolicy)
    (base : HostPath) (h : Host) (hwf : h.tree.WF) (hs : Site h base) (hd : isDirAt h.tree base = true)
    (hempty : ∀ q, q ≠ [] → h.tree.get (base ++ q) = none) :
    (captureBaseState tree base policy h).1 = .ok () ↔ Fillable tree policy base h := by
  have hstart : Blank tree policy base h (fun _ => False) h := by
    refine ⟨hwf, hd, rfl, fun _ _ hf => hf.elim, fun q h0 _ => hempty q h0⟩
  have hpolicy := fun ho => @policyFile_decides tree policy _ _ ho hs.ordinary hd ⟨h, {}⟩ hstart
  have hfresh : Fresh tree policy (fun q => policy.present = true ∧ q = [kCapturePolicyFileName])
      (fun q => [] <+: q ∧ q ≠ []) := by
    refine ⟨?_, fun hpr => ⟨hpr, rfl⟩⟩
    rintro q - hsel ⟨-, rfl⟩
    rw [not_selected_policyFile] at hsel
    cases hsel
  obtain ⟨hneeds, hwalk⟩ := @directory_decides _ policy _ _ hw hs.ordinary hd hfiles hroot.2.1
    (fun p n hn hdir => (hdirs p n hn hdir).1) tree.fuel [] tree.root _ (Or.inl ⟨rfl, rfl⟩) (fun h0 => absurd rfl h0)
    (by rw [ProjectTree.fuel, List.length_nil]; omega) hfresh
  have hselected : ∀ q, selected tree policy q = true → q ≠ [] ∧ (image tree policy q).isSome := by
    intro q hsel
    obtain ⟨n, -, hn⟩ := selected_get hsel
    exact ⟨(selected_iff.mp hsel).1, by rw [image_of_selected hsel hn]; rfl⟩
  have hmade : (createBase ⟨tree, some base, policy⟩ ⟨h, {}⟩).1 = .ok () ↔ tree.limits.takes base = true := by
    unfold createBase createDirectoriesWithin
    simp only [createBaseDirectories_present hwf hs hd]
    cases tree.limits.takes base <;> simp
  have hkept : tree.limits.takes base = true → (createBase ⟨tree, some base, policy⟩ ⟨h, {}⟩).2 = ⟨h, {}⟩ := by
    intro ht
    unfold createBase createDirectoriesWithin
    simp only [ht, if_true, createBaseDirectories_present hwf hs hd]
  unfold captureBaseState walkProject
  dsimp only
  constructor
  · intro hok
    split at hok
    · cases hok
    · rename_i hsource
      rw [hroot.1] at hsource
      obtain ⟨h₁₂, h₃⟩ := andThen_fst.mp hok
      obtain ⟨h₁, h₂⟩ := andThen_fst.mp h₁₂
      have ht := hmade.mp h₁
      have ho : tree.opens 0 = true := hneeds _ h₃
      rw [andThen_snd h₁, hkept ht] at h₃
      rw [hkept ht] at h₂
      have hall := (hwalk ho _ ((hpolicy ho).2 h₂)).1.mp h₃
      refine ⟨by simpa using hsource, ht, ho, fun p h0 hsome => ?_, fun p hsel => ?_⟩
      · rw [image] at hsome
        split at hsome
        · rename_i hfile
          rw [hfile.2]
          exact (hpolicy ho).1.mp h₂ hfile.1
        · split at hsome
          · rename_i hsel
            have hcopy := hall p ⟨List.nil_prefix, h0⟩ hsel
            exact ⟨hcopy.1, hcopy.2.1⟩
          · cases hsome
      · exact (hall p ⟨List.nil_prefix, (hselected p hsel).1⟩ hsel).2.2
  · intro hfill
    have ho := hfill.opens
    rw [if_neg (by rw [hfill.source, hroot.1]; simp), andThen_fst, andThen_fst, hmade]
    have h₂ := (hpolicy ho).1.mpr (fun hpr => hfill.fills _ (by simp) (by rw [image, if_pos ⟨hpr, rfl⟩]; rfl))
    rw [andThen_snd (hmade.mpr hfill.target), hkept hfill.target]
    refine ⟨⟨hfill.target, h₂⟩, (hwalk ho _ ((hpolicy ho).2 h₂)).1.mpr fun q hq hsel => ?_⟩
    obtain ⟨hf, ht⟩ := hfill.fills q hq.2 (hselected q hsel).2
    exact ⟨hf, ht, hfill.copies q hsel⟩

namespace CapturableWitness

def host : Host := { tree := ⟨[([[98]], ⟨.dir, ⟨1, 493, 0, 0, 0⟩⟩)]⟩, nextIno := 3, now := 0, umask := 18 }

def root : SourceNode := { kind := .dir, device := 1, perm := 493 }

/-- A file `x` in a directory `d` with the permissions 0755. -/
def tree : ProjectTree :=
  { entries := ⟨[([[100]], { kind := .dir, device := 1, perm := 493 }),
      ([[100], [120]], { kind := .file [1], device := 1, perm := 420 })]⟩
    root := root
    path := [[112]] }

/-- The same, with the permissions 0555. -/
def unwritable : ProjectTree :=
  { entries := ⟨[([[100]], { kind := .dir, device := 1, perm := 365 }),
      ([[100], [120]], { kind := .file [1], device := 1, perm := 420 })]⟩
    root := root
    path := [[112]] }

theorem tree_wf : tree.WF := ProjectTree.wf_of_entries (by decide) (by decide) (by simp [tree])

theorem unwritable_wf : unwritable.WF := ProjectTree.wf_of_entries (by decide) (by decide) (by simp [unwritable])

theorem tree_open {p : RelPath} {n : SourceNode} (hn : tree.entries.get p = some n) : n.readable = true ∧ n.searchable = true := by
  have hall : ∀ e ∈ tree.entries.entries, e.2.readable = true ∧ e.2.searchable = true := by decide
  exact hall _ (PathMap.mem_entries_of_get hn)

theorem host_wf : host.tree.WF := Tree.wf_of_entries (by decide)

theorem host_site : Site host [[98]] := by
  refine ⟨by decide, fun a ha n hn => ?_⟩
  have hall : ∀ e ∈ host.tree.entries, e.2.isDir = true := by decide
  exact hall _ (PathMap.mem_entries_of_get hn)

theorem host_empty : ∀ q, q ≠ [] → host.tree.get ([[98]] ++ q) = none := by
  intro q hq
  simp [host, PathMap.get, PathMap.lookupIn, Ne.symm hq]

/-- A directory that its owner may write is captured with what lies in it. -/
theorem fills : Fillable tree {} [[98]] host :=
  (capture_succeeds_iff tree tree_wf (by decide) (fun _ _ hn _ => tree_open hn) (fun _ _ _ hn _ => (tree_open hn).1) {} [[98]] host
    host_wf host_site (by decide) host_empty).mp (by decide +kernel)

/-- The capture of a directory that its owner may not write fails at what lies in it. -/
theorem refuses : unwritable.WF ∧ unwritable.entries.entries.all (fun e => e.2.readable && e.2.searchable) = true ∧
    host.tree.WF ∧ isDirAt host.tree [[98]] = true ∧ Host.mayCreate host [[98], [100]] = true ∧
    (captureBaseState unwritable [[98]] {} host).1 = .error (.cannotCopy [[100], [120]] accessDenied) :=
  ⟨unwritable_wf, by decide, host_wf, by decide, by decide, by decide +kernel⟩

end CapturableWitness

end TribiosVfs

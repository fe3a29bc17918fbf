import TribiosVfs.Lemmas.Homes
import TribiosVfs.Lemmas.HostRuns
import TribiosVfs.ProjectManager

/-!
# What Git's worktree commands leave on the host

`git worktree add -b` makes a branch; then a directory of its own in the registry and the worktree with the file that points back at
it. `git worktree remove` takes the directory away. What else is on the host stays as it is.
-/

namespace TribiosVfs

/-! ## The name of a new worktree -/

/-- The names Git tries for a new worktree, and one more than there are entries. -/
theorem freshAdmin_fresh (w : World) (registry path : HostPath) :
    w.host.tree.get (w.freshAdmin registry path) = none := by
  generalize hname : path.getLast?.getD [] = name
  let taken := w.host.tree.names registry
  let candidates := name :: (List.range (taken.length + 1)).map (fun i => name ++ decimal (i + 1))
  have hnodup : candidates.Nodup := by
    refine List.nodup_cons.mpr ⟨?_, (List.nodup_range).map ?_⟩
    · rw [List.mem_map]
      rintro ⟨i, -, hi⟩
      exact decimal_ne_nil (i + 1) (List.self_eq_append_right.mp hi.symm)
    · intro i j hij
      have := decimal_injective (List.append_cancel_left hij)
      omega
  have hfree : ∃ c ∈ candidates, (w.host.tree.get (registry ++ [c])).isNone := by
    by_contra hall
    have hsub : candidates ⊆ taken := by
      intro c hc
      refine PathMap.mem_names.mpr ?_
      by_contra hnone
      exact hall ⟨c, hc, by simpa using hnone⟩
    have hle := (hnodup.subperm hsub).length_le
    simp only [candidates, List.length_cons, List.length_map, List.length_range] at hle
    omega
  have hfind : (candidates.find? (fun c => (w.host.tree.get (registry ++ [c])).isNone)).isSome := by
    rw [List.find?_isSome]
    exact hfree
  obtain ⟨c, hc⟩ := Option.isSome_iff_exists.mp hfind
  have hdef : w.freshAdmin registry path = registry ++ [c] := by
    rw [World.freshAdmin, hname]
    change registry ++ [(candidates.find? _).getD name] = _
    rw [hc]
    rfl
  rw [hdef]
  simpa using List.find?_some hc

/-- A name of plain characters, and no line break in it. -/
def Spelled (c : Name) : Prop := Ordinary [c] ∧ (10 : UInt8) ∉ c

theorem decimal_spelled {c : Name} (hc : Spelled c) (n : Nat) : Spelled (c ++ decimal n) := by
  have hdigit : ∀ d ∈ decimal n, d ≠ 0 ∧ d ≠ slash ∧ d ≠ 46 ∧ d ≠ 10 := by
    intro d hd
    obtain ⟨k, hk, rfl⟩ := decimal_mem hd
    interval_cases k <;> decide
  obtain ⟨⟨hcan, hnul⟩, hline⟩ := hc
  have hc' := hcan c (List.mem_singleton_self c)
  refine ⟨⟨fun m hm => ?_, fun m hm => ?_⟩, ?_⟩
  · rw [List.mem_singleton.mp hm]
    have hlast : ∀ dots : Name, (∀ x ∈ dots, x = 46) → c ++ decimal n ≠ dots := by
      rintro dots hdots rfl
      have := List.getLast_mem (decimal_ne_nil n)
      exact (hdigit _ this).2.2.1 (hdots _ (List.mem_append_right _ this))
    refine ⟨by simp [hc'.ne_nil], hlast dot (by simp [dot]), hlast dotdot (by simp [dotdot]), fun hs => ?_⟩
    rcases List.mem_append.mp hs with hs | hs
    · exact hc'.no_slash hs
    · exact (hdigit _ hs).2.1 rfl
  · rw [List.mem_singleton.mp hm]
    intro h0
    rcases List.mem_append.mp h0 with h0 | h0
    · exact hnul c (List.mem_singleton_self c) h0
    · exact (hdigit _ h0).1 rfl
  · intro h10
    rcases List.mem_append.mp h10 with h10 | h10
    · exact hline h10
    · exact (hdigit _ h10).2.2.2 rfl

theorem freshAdmin_spelled (w : World) (registry d : HostPath) {name : Name} (hname : Spelled name) :
    ∃ c, w.freshAdmin registry (d ++ [name]) = registry ++ [c] ∧ Spelled c := by
  refine ⟨_, rfl, ?_⟩
  simp only [List.getLast?_concat, Option.getD_some]
  cases hfind : (name :: (List.range ((w.host.tree.names registry).length + 1)).map (fun i => name ++ decimal (i + 1))).find?
      (fun c => (w.host.tree.get (registry ++ [c])).isNone) with
  | none => exact hname
  | some c =>
    have hmem := List.mem_of_find?_eq_some hfind
    rcases List.mem_cons.mp hmem with rfl | hmem
    · exact hname
    · obtain ⟨i, -, rfl⟩ := List.mem_map.mp hmem
      exact decimal_spelled hname (i + 1)

/-! ## Entries Git makes -/

theorem Node.isReg_of_seen {n m : Node} (h : n.seen = m.seen) : n.isReg = m.isReg := by
  unfold Node.isReg
  rw [Node.contents_of_seen h]

/-- One entry, made where none is. -/
theorem frame_addMissing {h : Host} (hw : h.tree.WF) {e : HostPath × Contents} (hne : e.1 ≠ []) (ho : Ordinary e.1)
    (hd : isDirAt h.tree e.1.dropLast = true) : Frame (· = e.1) h (World.addMissing h e) := by
  unfold World.addMissing
  split
  · exact Frame.refl hw
  · rename_i hn
    exact frame_addEntry hw ho hne hd (by simpa using hn) _ _

theorem addMissing_get {h : Host} {e : HostPath × Contents} (hne : e.1 ≠ []) (hn : h.tree.get e.1 = none) :
    ∃ n, (World.addMissing h e).tree.get e.1 = some n ∧ n.contents = e.2 := by
  unfold World.addMissing
  rw [hn]
  refine ⟨⟨e.2, ⟨h.nextIno, if e.2 = .dir then h.directoryPerm e.1.dropLast 511 else h.maskPerm 438, h.now, h.now, h.now⟩⟩, ?_, rfl⟩
  rw [Option.isSome_none, if_neg Bool.false_ne_true, addEntry_get h hne, if_pos rfl]

/-- What is there already is not made. -/
theorem addMissing_there {h : Host} {es : List (HostPath × Contents)} (hes : ∀ e ∈ es, (h.tree.get e.1).isSome) :
    es.foldl World.addMissing h = h := by
  induction es with
  | nil => rfl
  | cons e es ih =>
    have hone : World.addMissing h e = h := if_pos (hes e List.mem_cons_self)
    rw [List.foldl_cons, hone]
    exact ih (fun e' he' => hes e' (List.mem_cons_of_mem _ he'))

/-- The directories at and above a directory are there. -/
theorem leading_there {h : Host} (hw : h.tree.WF) {d : HostPath} (hd : isDirAt h.tree d = true) :
    ∀ e ∈ d.inits.tail.map (·, Contents.dir), (h.tree.get e.1).isSome := by
  intro e he
  obtain ⟨a, ha, rfl⟩ := List.mem_map.mp he
  have hne : a ≠ [] := by
    rintro rfl
    cases d with
    | nil => simp at ha
    | cons x d => simp at ha
  obtain ⟨n, hn, -⟩ := (isDirAt_iff hne).mp (hw.isDirAt_initial hd ((List.mem_inits _ _).mp (List.mem_of_mem_tail ha)))
  rw [hn]
  rfl

/-- A directory, made where none is or there already. -/
theorem addMissing_dir {h : Host} {p : HostPath} (hne : p ≠ []) (hl : ∀ n, h.tree.get p = some n → n.isDir = true) :
    isDirAt (World.addMissing h (p, .dir)).tree p = true := by
  cases hn : h.tree.get p with
  | none =>
    obtain ⟨n, hn', hc⟩ := addMissing_get (e := (p, .dir)) hne hn
    exact (isDirAt_iff hne).mpr ⟨n, hn', Node.isDir_of_contents hc⟩
  | some n =>
    unfold World.addMissing
    rw [hn, Option.isSome_some, if_pos rfl]
    exact (isDirAt_iff hne).mpr ⟨n, hn, hl n hn⟩

theorem Frame.isDirAt_eq {R : HostPath → Prop} {h h' : Host} (hf : Frame R h h') {q : HostPath} (hq : ¬R q) :
    isDirAt h'.tree q = isDirAt h.tree q := isDirAt_of_sees (hf.same q hq)

theorem Frame.get_none {R : HostPath → Prop} {h h' : Host} (hf : Frame R h h') {q : HostPath} (hq : ¬R q) :
    h'.tree.get q = none ↔ h.tree.get q = none := by
  rw [← Tree.sees_eq_none, hf.same q hq, Tree.sees_eq_none]

/-- What is a directory, if it is anything, stays so. -/
theorem Frame.dir_of {R : HostPath → Prop} {h h' : Host} (hf : Frame R h h') {q : HostPath} (hq : ¬R q)
    (hd : ∀ n, h.tree.get q = some n → n.isDir = true) : ∀ n, h'.tree.get q = some n → n.isDir = true := by
  intro n hn
  obtain ⟨m, hm, he⟩ := Tree.get_of_sees (hf.same q hq) hn
  rw [Node.isDir_of_seen he]
  exact hd m hm

/-- What a directory holds directly are regular files. -/
def HoldsFiles (t : Tree) (d : HostPath) : Prop := ∀ c n, t.get (d ++ [c]) = some n → n.isReg = true

theorem HoldsFiles.frame {R : HostPath → Prop} {h h' : Host} {d : HostPath} (hh : HoldsFiles h.tree d) (hf : Frame R h h')
    (hR : ∀ c, ¬R (d ++ [c])) : HoldsFiles h'.tree d := by
  intro c n hn
  obtain ⟨m, hm, he⟩ := Tree.get_of_sees (hf.same (d ++ [c]) (hR c)) hn
  rw [Node.isReg_of_seen he]
  exact hh c m hm

/-- One of the files is written again. -/
theorem HoldsFiles.replaced {h h' : Host} {d : HostPath} {c : Name} {data : Bytes} (hh : HoldsFiles h.tree d)
    (hf : Frame (· = d ++ [c]) h h') (hn : ∃ n, h'.tree.get (d ++ [c]) = some n ∧ n.contents = .file data) :
    HoldsFiles h'.tree d := by
  intro c' n hn'
  by_cases hc : d ++ [c'] = d ++ [c]
  · obtain ⟨m, hm, hcont⟩ := hn
    rw [hc, hm, Option.some.injEq] at hn'
    rw [← hn', Node.isReg, hcont]
  · obtain ⟨m, hm, he⟩ := Tree.get_of_sees (hf.same _ hc) hn'
    rw [Node.isReg_of_seen he]
    exact hh c' m hm

theorem HoldsFiles.file {h : Host} (hw : h.tree.WF) {d : HostPath} (hh : HoldsFiles h.tree d) {c : Name} {data : Bytes}
    (ho : Ordinary (d ++ [c])) (hd : isDirAt h.tree d = true) :
    Frame (· = d ++ [c]) h (World.addMissing h (d ++ [c], .file data)) ∧
      HoldsFiles (World.addMissing h (d ++ [c], .file data)).tree d := by
  have hne : d ++ [c] ≠ [] := by simp
  have hf := frame_addMissing hw (e := (d ++ [c], .file data)) hne ho (by rw [List.dropLast_concat]; exact hd)
  refine ⟨hf, fun c' n hn => ?_⟩
  by_cases hc : d ++ [c'] = d ++ [c]
  · rw [hc] at hn
    cases hold : h.tree.get (d ++ [c]) with
    | none =>
      obtain ⟨m, hm, hcont⟩ := addMissing_get (e := (d ++ [c], .file data)) hne hold
      rw [hm, Option.some.injEq] at hn
      rw [← hn, Node.isReg, hcont]
    | some m =>
      unfold World.addMissing at hn
      rw [hold, Option.isSome_some, if_pos rfl, hold, Option.some.injEq] at hn
      exact hn ▸ hh c m hold
  · obtain ⟨m, hm, he⟩ := Tree.get_of_sees (hf.same _ hc) hn
    rw [Node.isReg_of_seen he]
    exact hh c' m hm

/-- The registry of a repository: its parent is a directory, and it is none or a directory. -/
structure RegistryAt (root : HostPath) (t : Tree) : Prop where
  ordinary : Ordinary root
  git : isDirAt t (root ++ [kGitDirName]) = true
  registry : ∀ n, t.get (root ++ [kGitDirName, worktreesName]) = some n → n.isDir = true

/-- What `git worktree add` has made. -/
structure Linked (root path : HostPath) (c : Name) (h h' : Host) : Prop where
  frame : Frame (fun q => q = root ++ [kGitDirName, worktreesName] ∨ root ++ [kGitDirName, worktreesName, c] <+: q ∨
    path <+: q) h h'
  registry : isDirAt h'.tree (root ++ [kGitDirName, worktreesName]) = true
  admin : isDirAt h'.tree (root ++ [kGitDirName, worktreesName, c]) = true
  files : HoldsFiles h'.tree (root ++ [kGitDirName, worktreesName, c])
  gitFile : ∃ n, h'.tree.get (path ++ [kGitDirName]) = some n ∧
    n.contents = .file (gitdirMarker ++ pathText (root ++ [kGitDirName, worktreesName, c]) ++ [10])

theorem ordinary_names {c : Name} (hc : Ordinary [c]) : Ordinary [kGitDirName, worktreesName, c] :=
  Ordinary.append (p := [kGitDirName, worktreesName]) (by decide) hc

/-- Where nothing is at its path, or a directory with no `.git` in it, Git makes a new worktree. -/
theorem linked_made {h : Host} (hw : h.tree.WF) {root path : HostPath} {c : Name} (branch : Name)
    (hreg : RegistryAt root h.tree) (hpath : Ordinary path) (hne : path ≠ []) (hd : isDirAt h.tree path.dropLast = true)
    (hc : Ordinary [c]) (hapart : ¬root ++ [kGitDirName] <+: path)
    (hfresh : h.tree.get (root ++ [kGitDirName, worktreesName, c]) = none)
    (hplace : ∀ n, h.tree.get path = some n → n.isDir = true) (hnone : h.tree.get (path ++ [kGitDirName]) = none) :
    Linked root path c h (((root ++ [kGitDirName, worktreesName], Contents.dir) ::
      World.worktreeEntries (root ++ [kGitDirName, worktreesName, c]) path branch).foldl World.addMissing h) := by
  have hadmin : root ++ [kGitDirName, worktreesName, c] = root ++ [kGitDirName, worktreesName] ++ [c] := by simp
  have hgit : root ++ [kGitDirName] <+: root ++ [kGitDirName, worktreesName] := ⟨[worktreesName], by simp⟩
  have hgit' : root ++ [kGitDirName] <+: root ++ [kGitDirName, worktreesName, c] := ⟨[worktreesName, c], by simp⟩
  have horegistry : Ordinary (root ++ [kGitDirName, worktreesName]) := hreg.ordinary.append (by decide)
  have hoadmin : Ordinary (root ++ [kGitDirName, worktreesName, c]) := hreg.ordinary.append (ordinary_names hc)
  have hofile : ∀ n : Name, Ordinary [n] → Ordinary (root ++ [kGitDirName, worktreesName, c] ++ [n]) :=
    fun n hn => hoadmin.append hn
  have hogit : Ordinary (path ++ [kGitDirName]) := hpath.append (by decide)
  -- the worktree is apart from the registry, and so is its parent
  have hapart' : ¬root ++ [kGitDirName] <+: path ++ [kGitDirName] := by
    intro hp
    rcases List.prefix_concat_iff.mp hp with heq | hp
    · obtain ⟨n, hn, -⟩ := (isDirAt_iff (by simp)).mp hreg.git
      rw [heq, hnone] at hn
      cases hn
    · exact hapart hp
  have hapartd : ¬root ++ [kGitDirName] <+: path.dropLast := fun hp => hapart (hp.trans (List.dropLast_prefix path))
  have hoff : ∀ {q r : HostPath}, root ++ [kGitDirName] <+: q → ¬root ++ [kGitDirName] <+: r → r ≠ q := by
    rintro q r hq hr rfl
    exact hr hq
  have hunder : ∀ n : Name, root ++ [kGitDirName] <+: root ++ [kGitDirName, worktreesName, c] ++ [n] :=
    fun n => hgit'.trans (List.prefix_append _ _)
  have hlen : ∀ n : Name, root ++ [kGitDirName, worktreesName, c] ++ [n] ≠ root ++ [kGitDirName, worktreesName] := by
    intro n heq
    have := congrArg List.length heq
    simp at this
  have hlen' : ∀ n : Name, root ++ [kGitDirName, worktreesName, c] ++ [n] ≠ root ++ [kGitDirName, worktreesName, c] := by
    intro n heq
    have := congrArg List.length heq
    simp at this
  have hne2 : root ++ [kGitDirName, worktreesName, c] ≠ root ++ [kGitDirName, worktreesName] := by simp
  simp only [World.worktreeEntries, List.foldl_cons, List.foldl_nil]
  -- the registry
  have F₁ := frame_addMissing hw (e := (root ++ [kGitDirName, worktreesName], .dir)) (by simp) horegistry
    (by simpa using hreg.git)
  have D₁ := addMissing_dir (h := h) (p := root ++ [kGitDirName, worktreesName]) (by simp) hreg.registry
  generalize World.addMissing h (root ++ [kGitDirName, worktreesName], .dir) = h₁ at F₁ D₁ ⊢
  have N₁ := (F₁.get_none hne2).mpr hfresh
  have P₁ := F₁.dir_of (hoff hgit hapart) hplace
  have M₁ := (F₁.get_none (hoff hgit hapart')).mpr hnone
  have W₁ := F₁.isDirAt_eq (hoff hgit hapartd)
  rw [hd] at W₁
  -- the administrative directory
  have F₂ := frame_addMissing F₁.wf (e := (root ++ [kGitDirName, worktreesName, c], .dir)) (by simp) hoadmin
    (by rw [hadmin, List.dropLast_concat]; exact D₁)
  have D₂ := addMissing_dir (h := h₁) (p := root ++ [kGitDirName, worktreesName, c]) (by simp)
    (fun n hn => by rw [N₁] at hn; cases hn)
  have H₂ : HoldsFiles (World.addMissing h₁ (root ++ [kGitDirName, worktreesName, c], .dir)).tree
      (root ++ [kGitDirName, worktreesName, c]) := by
    intro n m hm
    have hnone' := F₁.wf.rooted.get_under_none (by simp) N₁ (List.prefix_append _ [n])
    rw [(F₂.get_none (hlen' n)).mpr hnone'] at hm
    cases hm
  generalize World.addMissing h₁ (root ++ [kGitDirName, worktreesName, c], .dir) = h₂ at F₂ D₂ H₂ ⊢
  have R₂ := (F₂.isDirAt_eq (Ne.symm hne2)).trans D₁
  have P₂ := F₂.dir_of (hoff hgit' hapart) P₁
  have M₂ := (F₂.get_none (hoff hgit' hapart')).mpr M₁
  have W₂ := (F₂.isDirAt_eq (hoff hgit' hapartd)).trans W₁
  -- its files, one after another
  obtain ⟨F₃, H₃⟩ := @HoldsFiles.file _ F₂.wf _ H₂ headName (refsHeadsMarker ++ branch ++ [10]) (hofile _ (by decide)) D₂
  generalize World.addMissing h₂ _ = h₃ at F₃ H₃ ⊢
  have D₃ := (F₃.isDirAt_eq (Ne.symm (hlen' _))).trans D₂
  obtain ⟨F₄, H₄⟩ := @HoldsFiles.file _ F₃.wf _ H₃ commondirName ([46, 46, 47, 46, 46] ++ [10]) (hofile _ (by decide)) D₃
  generalize World.addMissing h₃ _ = h₄ at F₄ H₄ ⊢
  have D₄ := (F₄.isDirAt_eq (Ne.symm (hlen' _))).trans D₃
  obtain ⟨F₅, H₅⟩ := @HoldsFiles.file _ F₄.wf _ H₄ gitdirName (pathText (path ++ [kGitDirName]) ++ [10]) (hofile _ (by decide)) D₄
  generalize World.addMissing h₄ _ = h₅ at F₅ H₅ ⊢
  have D₅ := (F₅.isDirAt_eq (Ne.symm (hlen' _))).trans D₄
  have F₂₅ : Frame (fun q => ∃ n, q = root ++ [kGitDirName, worktreesName, c] ++ [n]) h₂ h₅ :=
    ((F₃.mono (fun q hq => ⟨_, hq⟩)).trans (F₄.mono (fun q hq => ⟨_, hq⟩))).trans (F₅.mono (fun q hq => ⟨_, hq⟩))
  have hout : ∀ {q : HostPath}, ¬root ++ [kGitDirName] <+: q → ¬∃ n, q = root ++ [kGitDirName, worktreesName, c] ++ [n] := by
    rintro q hq ⟨n, rfl⟩
    exact hq (hunder n)
  have P₅ := F₂₅.dir_of (hout hapart) P₂
  have M₅ := (F₂₅.get_none (hout hapart')).mpr M₂
  have W₅ := (F₂₅.isDirAt_eq (hout hapartd)).trans W₂
  have R₅ := (F₂₅.isDirAt_eq (fun ⟨n, hn⟩ => hlen n hn.symm)).trans R₂
  -- the worktree
  have F₆ := frame_addMissing F₅.wf (e := (path, .dir)) hne hpath W₅
  have D₆ := addMissing_dir (h := h₅) (p := path) hne P₅
  generalize World.addMissing h₅ (path, .dir) = h₆ at F₆ D₆ ⊢
  have N₆ : h₆.tree.get (path ++ [kGitDirName]) = none := by
    refine (F₆.get_none ?_).mpr M₅
    intro heq
    have := congrArg List.length heq
    simp at this
  have F₇ := frame_addMissing F₆.wf
    (e := (path ++ [kGitDirName], .file (gitdirMarker ++ pathText (root ++ [kGitDirName, worktreesName, c]) ++ [10])))
    (by simp) hogit (by rw [List.dropLast_concat]; exact D₆)
  have G₇ := addMissing_get
    (e := (path ++ [kGitDirName], .file (gitdirMarker ++ pathText (root ++ [kGitDirName, worktreesName, c]) ++ [10])))
    (by simp) N₆
  generalize World.addMissing h₆ _ = h₇ at F₇ G₇ ⊢
  have F₆₇ : Frame (fun q => q = path ∨ q = path ++ [kGitDirName]) h₅ h₇ :=
    (F₆.mono (fun q hq => Or.inl hq)).trans (F₇.mono (fun q hq => Or.inr hq))
  have hkeep : ∀ {q : HostPath}, root ++ [kGitDirName] <+: q → ¬(q = path ∨ q = path ++ [kGitDirName]) := by
    rintro q hq (rfl | rfl)
    · exact hapart hq
    · exact hapart' hq
  refine ⟨?_, (F₆₇.isDirAt_eq (hkeep hgit)).trans R₅, (F₆₇.isDirAt_eq (hkeep hgit')).trans D₅,
    H₅.frame F₆₇ (fun n => hkeep (hunder n)), G₇⟩
  refine (F₁.mono (fun q hq => Or.inl hq)).trans ((F₂.mono (fun q hq => Or.inr (Or.inl ?_))).trans
    ((F₂₅.mono (fun q hq => Or.inr (Or.inl ?_))).trans (F₆₇.mono (fun q hq => Or.inr (Or.inr ?_)))))
  · exact hq ▸ List.prefix_refl _
  · obtain ⟨n, rfl⟩ := hq
    exact List.prefix_append _ _
  · rcases hq with rfl | rfl
    · exact List.prefix_refl _
    · exact List.prefix_append _ _

/-! ## The commands -/

/-- `git branch` has no effect, or makes a branch that was not there. -/
theorem gitBranch_cases (w : World) (root : HostPath) (branch : Name) :
    w.gitBranch root branch = (.failed, w) ∨
      ∃ commit, w.gitBranch root branch =
          (.ok, { w with git := { w.git with branches := w.git.branches ++ [(branch, commit)] } }) ∧
        ∀ b ∈ w.git.branches, b.1 ≠ branch := by
  unfold World.gitBranch
  cases w.git.headCommit with
  | none => exact Or.inl rfl
  | some commit =>
    dsimp only
    split
    · exact Or.inl rfl
    · rename_i hok
      exact Or.inr ⟨commit, rfl, fun b hb he => hok (Or.inl ⟨b, hb, he⟩)⟩

/-- Git makes a new branch of a name it takes. -/
theorem gitBranch_takes {w : World} {root : HostPath} {branch : Name} (hcommit : w.git.headCommit.isSome)
    (hbranch : ∀ b ∈ w.git.branches, b.1 ≠ branch) (haccepts : w.git.acceptsBranch branch = true)
    (hgit : isDirAt w.host.tree (root ++ [kGitDirName]) = true) : (w.gitBranch root branch).1 = .ok := by
  obtain ⟨commit, hcommit⟩ := Option.isSome_iff_exists.mp hcommit
  unfold World.gitBranch
  rw [hcommit]
  dsimp only
  rw [if_neg]
  rintro (⟨b, hb, he⟩ | hno | hno)
  · exact hbranch b hb he
  · rw [haccepts] at hno
    cases hno
  · rw [hgit] at hno
    cases hno

/-- What Git has registered after the addition of a worktree. -/
structure Registered (root path : HostPath) (branch c : Name) (w w' : World) : Prop where
  git : w'.git = { w.git with
    worktrees := w.git.worktrees ++ [⟨root ++ [kGitDirName, worktreesName, c], path, some branch⟩] }
  store : w'.store = w.store
  env : w'.env = w.env
  linked : Linked root path c w.host w'.host
  spelled : Spelled c
  newAdmin : w.host.tree.get (root ++ [kGitDirName, worktreesName, c]) = none

/-- An emptied path in a directory is vacant. -/
theorem vacant_of_emptied {t : Tree} (hw : t.WF) {path : HostPath} (hne : path ≠ []) (hd : isDirAt t path.dropLast = true)
    (he : Emptied path t) : World.vacant t path = true := by
  have habove : path.dropLast.inits.all (fun p => (nodeAt t p).isNone || isDirAt t p) = true := by
    rw [List.all_eq_true]
    intro a ha
    rw [hw.isDirAt_initial hd ((List.mem_inits _ _).mp ha), Bool.or_true]
  rw [World.vacant, habove, nodeAt_of_ne hne]
  rcases he with hnone | ⟨hdir, hnames⟩
  · simp [hnone]
  · simp [hdir, hnames]

/-- `git worktree add` at a path in a directory registers a new worktree there, unless something is in the way. -/
theorem gitWorktreeAdd_takes {w : World} (hw : w.host.tree.WF) {root d : HostPath} {name branch : Name}
    (hreg : RegistryAt root w.host.tree) (hd : Ordinary d) (hdir : isDirAt w.host.tree d = true) (hname : Spelled name)
    (hapart : ¬root ++ [kGitDirName] <+: d ++ [name]) (hbranch : ∃ b ∈ w.git.branches, b.1 = branch)
    (hpath : ∀ t ∈ w.git.worktrees, t.path ≠ d ++ [name]) (hempty : Emptied (d ++ [name]) w.host.tree) :
    ∃ c w', w.gitWorktreeAdd root branch (d ++ [name]) = (.ok, w') ∧ Registered root (d ++ [name]) branch c w w' := by
  have hne : d ++ [name] ≠ [] := by simp
  obtain ⟨c, hc, hspelled⟩ := freshAdmin_spelled w (root ++ [kGitDirName, worktreesName]) d hname
  have hfresh := freshAdmin_fresh w (root ++ [kGitDirName, worktreesName]) (d ++ [name])
  have hadmin : root ++ [kGitDirName, worktreesName] ++ [c] = root ++ [kGitDirName, worktreesName, c] := by simp
  rw [hc, hadmin] at hfresh
  have hvacant := vacant_of_emptied hw hne (by rw [List.dropLast_concat]; exact hdir) hempty
  have hlinked := linked_made hw branch hreg (hd.append hname.1) hne (by rw [List.dropLast_concat]; exact hdir) hspelled.1 hapart
    hfresh (fun n hn => ?_) ?_
  · unfold World.gitWorktreeAdd
    dsimp only
    rw [if_neg, hc, hadmin, List.dropLast_concat, List.foldl_append, addMissing_there (leading_there hw hdir)]
    · generalize List.foldl World.addMissing w.host _ = h' at hlinked
      exact ⟨c, _, rfl, { git := rfl, store := rfl, env := rfl, linked := hlinked, spelled := hspelled, newAdmin := hfresh }⟩
    · rintro (hno | ⟨t, ht, he⟩ | hno | hno | ⟨n, hn, hno⟩)
      · obtain ⟨b, hb, he⟩ := hbranch
        exact hno b hb he
      · exact hpath t ht he
      · rw [hvacant] at hno
        cases hno
      · rw [hreg.git] at hno
        cases hno
      · rw [hreg.registry n hn] at hno
        cases hno
  · rcases hempty with hnone | ⟨hisdir, -⟩
    · rw [hnone] at hn
      cases hn
    · obtain ⟨m, hm, hmd⟩ := (isDirAt_iff hne).mp hisdir
      rw [hm, Option.some.injEq] at hn
      exact hn ▸ hmd
  · rcases hempty with hnone | ⟨-, hnames⟩
    · exact hw.rooted.get_under_none hne hnone (List.prefix_append _ _)
    · by_contra hsome
      have hmem := PathMap.mem_names.mpr (Option.isSome_iff_ne_none.mpr hsome)
      rw [hnames] at hmem
      cases hmem

/-- The new `gitdir` of an administrative directory that holds files. -/
theorem writeGitdir_ok {w : World} (hw : w.host.tree.WF) {admin gitFile : HostPath} (ho : Ordinary admin)
    (hd : isDirAt w.host.tree admin = true) (hh : HoldsFiles w.host.tree admin) :
    ∃ h', w.writeGitdir admin gitFile = (.ok (), { w with
      host := h'
      git := { w.git with worktrees := w.git.worktrees.map (fun t =>
        if t.admin = admin then { t with path := gitFile.dropLast } else t) } }) ∧
      Frame (· = admin ++ [gitdirName]) w.host h' ∧ HoldsFiles h'.tree admin := by
  obtain ⟨h', hok, hf, hn⟩ := replaceFile_real hw (p := admin ++ [gitdirName]) (by simp) (ho.append (by decide))
    (by rw [List.dropLast_concat]; exact hd) (hh gitdirName) (pathText gitFile ++ [10])
  refine ⟨h', ?_, hf, hh.replaced hf hn⟩
  unfold World.writeGitdir
  rw [hok]

/-- The entries at and beneath a path go. -/
theorem frame_keep {h : Host} (hw : h.tree.WF) (p : HostPath) :
    Frame (p <+: ·) h { h with tree := h.tree.keep (fun q => ¬p <+: q) } := by
  have hget : ∀ q, (h.tree.keep (fun q => ¬p <+: q)).get q = if p <+: q then none else h.tree.get q := by
    intro q
    rw [PathMap.get_keep]
    by_cases hq : p <+: q <;> simp [hq]
  refine ⟨⟨⟨?_, fun q n hs => ?_⟩, fun q hq => ?_⟩, fun q hq => ?_⟩
  · rw [hget, hw.get_nil]
    simp
  · rw [hget] at hs
    split at hs
    · cases hs
    · rename_i hp
      rcases hw.rooted.parent q n hs with rfl | ⟨v, hv, hd⟩
      · exact Or.inl rfl
      · refine Or.inr ⟨v, ?_, hd⟩
        rw [hget, if_neg (fun hpq => hp (hpq.trans (List.prefix_append _ _)))]
        exact hv
  · rw [hget] at hq
    split at hq
    · cases hq
    · exact hw.ordinary q hq
  · rw [Tree.sees, hget, if_neg hq]
    rfl

/-- The only worktree at a path goes from the registry. -/
theorem gitWorktreeRemove_ok {w : World} {ts : List Worktree} {t : Worktree} (hts : w.git.worktrees = ts ++ [t])
    (hnew : ∀ u ∈ ts, u.path ≠ t.path) :
    w.gitWorktreeRemove t.path = (.ok, { w with
      git := { w.git with worktrees := ts }
      host := { w.host with tree := w.host.tree.keep (fun q => ¬t.admin <+: q) } }) := by
  have hfind : w.git.worktrees.find? (fun u => u.path = t.path) = some t := by
    rw [hts, List.find?_append]
    have hnone : ts.find? (fun u => u.path = t.path) = none := by
      rw [List.find?_eq_none]
      intro u hu
      simpa using hnew u hu
    rw [hnone]
    simp
  have hfilter : w.git.worktrees.filter (fun u => u ≠ t) = ts := by
    rw [hts, List.filter_append, List.filter_eq_self.mpr]
    · simp
    · intro u hu
      have hne : u ≠ t := by
        rintro rfl
        exact hnew u hu rfl
      simpa using hne
  unfold World.gitWorktreeRemove
  rw [hfind]
  dsimp only
  rw [hfilter]

theorem gitWorktreeRemove_none {w : World} {path : HostPath} (hno : ∀ t ∈ w.git.worktrees, t.path ≠ path) :
    w.gitWorktreeRemove path = (.notAWorkingTree, w) := by
  have hnone : w.git.worktrees.find? (fun t => t.path = path) = none := by
    rw [List.find?_eq_none]
    intro t ht
    simpa using hno t ht
  unfold World.gitWorktreeRemove
  rw [hnone]

/-- The last branch goes when no worktree has it checked out. -/
theorem gitBranchDelete_ok {w : World} {bs : List (Name × Nat)} {branch : Name} {commit : Nat}
    (hbs : w.git.branches = bs ++ [(branch, commit)]) (hnew : ∀ b ∈ bs, b.1 ≠ branch) (hmain : w.git.mainHead ≠ some branch)
    (hheads : ∀ t ∈ w.git.worktrees, t.head ≠ some branch) :
    w.gitBranchDelete branch = (.ok, { w with git := { w.git with branches := bs } }) := by
  have hthere : ¬∀ b ∈ w.git.branches, b.1 ≠ branch := by
    intro h
    exact h (branch, commit) (by rw [hbs]; simp) rfl
  have hfilter : w.git.branches.filter (fun b => b.1 ≠ branch) = bs := by
    rw [hbs, List.filter_append, List.filter_eq_self.mpr]
    · simp
    · intro b hb
      simpa using hnew b hb
  unfold World.gitBranchDelete
  rw [if_neg hthere, if_neg, hfilter]
  rintro (h | ⟨t, ht, h⟩)
  · exact hmain h
  · exact hheads t ht h

/-! ## The file that points at an administrative directory -/

theorem mem_text {c : UInt8} : ∀ {p : RelPath}, c ∈ p.text → c = slash ∨ ∃ s ∈ p, c ∈ s
  | [], h => by simp [RelPath.text] at h
  | [s], h => Or.inr ⟨s, by simp, by simpa [RelPath.text] using h⟩
  | s :: r :: rest, h => by
    rw [RelPath.text, List.mem_append, List.mem_cons] at h
    rcases h with h | rfl | h
    · exact Or.inr ⟨s, by simp, h⟩
    · exact Or.inl rfl
    · rcases mem_text h with h | ⟨s', hs', h⟩
      · exact Or.inl h
      · exact Or.inr ⟨s', List.mem_cons_of_mem _ hs', h⟩

theorem hostPathOf_pathText {p : HostPath} (hp : Ordinary p) : hostPathOf (pathText p) = p := by
  have hsplit : splitSlash (pathText p) = [] :: splitSlash (RelPath.text p) := by
    rw [pathText]
    exact splitSlash_append (s := []) (by simp) _
  unfold hostPathOf
  rw [hsplit, List.filter_cons_of_neg (by simp)]
  by_cases h0 : p = []
  · subst h0
    rfl
  · rw [splitSlash_text (fun n hn => (hp.1 n hn).no_slash) h0, List.filter_eq_self]
    intro n hn
    simpa using (hp.1 n hn).ne_nil

theorem findText_marker (text : Bytes) : findText gitdirWord (gitdirMarker ++ text) = some 0 := by
  unfold findText
  rw [List.range_succ_eq_map]
  rfl

/-- The first line of the file Git leaves in a worktree, and what it says. -/
theorem gitFile_line {p : HostPath} (hline : ∀ s ∈ p, (10 : UInt8) ∉ s) :
    (gitdirMarker ++ pathText p ++ [10]).takeWhile (· ≠ 10) = gitdirMarker ++ pathText p := by
  have hall : ∀ c ∈ gitdirMarker ++ pathText p, (decide (c ≠ 10)) = true := by
    intro c hc
    rw [decide_eq_true_eq]
    rintro rfl
    rcases List.mem_append.mp hc with hc | hc
    · exact absurd hc (by decide)
    · rcases List.mem_cons.mp hc with hc | hc
      · exact absurd hc (by decide)
      · rcases mem_text hc with hc | ⟨s, hs, hc⟩
        · exact absurd hc (by decide)
        · exact hline s hs hc
  rw [List.takeWhile_append_of_pos hall]
  simp

end TribiosVfs

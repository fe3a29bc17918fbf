import TribiosVfs.Lemmas.HostRuns

/-!
# What a call changes, exactly

A call at a path in a real directory changes what is at and beneath the path and the times of the directory above, and nothing
else. `Edit` says so of one path and composes; a rename is an edit of two paths at once (`Moved`). A tree is looked at with the times
of directories left out within one directory (`Tree.look`), and then an edit is seen nowhere but at and beneath its path.
-/

namespace TribiosVfs

/-- A node without the times of a directory, which change as its entries come and go. -/
def Node.lasting (n : Node) : Node :=
  if n.isDir then { n with attrs := { n.attrs with atime := 0, mtime := 0, ctime := 0 } } else n

@[simp] theorem Node.lasting_contents (n : Node) : n.lasting.contents = n.contents := by
  unfold Node.lasting
  split <;> rfl

@[simp] theorem Node.lasting_isDir (n : Node) : n.lasting.isDir = n.isDir := by
  rw [Node.isDir, Node.isDir, n.lasting_contents]

@[simp] theorem Node.lasting_ino (n : Node) : n.lasting.attrs.ino = n.attrs.ino := by
  unfold Node.lasting
  split <;> rfl

@[simp] theorem Node.lasting_perm (n : Node) : n.lasting.attrs.perm = n.attrs.perm := by
  unfold Node.lasting
  split <;> rfl

@[simp] theorem Node.lasting_touched {n : Node} (hd : n.isDir = true) (now : Int) : (n.touched now).lasting = n.lasting := by
  simp only [Node.lasting, Node.touched_isDir, hd, if_true]
  rfl

/-- The times of a directory are not among what it passes on. -/
theorem groupBit_of_lasting {t t' : Tree} {q : HostPath} (h : (t'.get q).map Node.lasting = (t.get q).map Node.lasting) :
    groupBit t' q = groupBit t q := by
  by_cases h0 : q = []
  · rw [groupBit, groupBit, h0]
    rfl
  · rw [groupBit, groupBit, nodeAt_of_ne h0, nodeAt_of_ne h0]
    cases hn : t.get q with
    | none =>
      rw [hn, Option.map_none, Option.map_eq_none_iff] at h
      rw [h]
    | some n =>
      rw [hn, Option.map_some] at h
      obtain ⟨m, hm, he⟩ := Option.map_eq_some_iff.mp h
      have hperm := congrArg (fun k : Node => k.attrs.perm) he
      simp only [Node.lasting_perm] at hperm
      rw [hm]
      simp only [hperm]

/-! ## Edits -/

/-- What has changed is at and beneath a path, and the times of the directory above. -/
structure Edit (p : HostPath) (h h' : Host) : Prop where
  wf : h'.tree.WF
  off : ∀ q, ¬p <+: q → q ≠ p.dropLast → h'.tree.get q = h.tree.get q
  parent : (h'.tree.get p.dropLast).map Node.lasting = (h.tree.get p.dropLast).map Node.lasting
  umask : h'.umask = h.umask
  now : h'.now = h.now

namespace Edit

variable {p : HostPath} {h h' h'' : Host}

theorem refl (hw : h.tree.WF) (p : HostPath) : Edit p h h := ⟨hw, fun _ _ _ => rfl, rfl, rfl, rfl⟩

theorem trans (he : Edit p h h') (he' : Edit p h' h'') : Edit p h h'' where
  wf := he'.wf
  off q hq hd := (he'.off q hq hd).trans (he.off q hq hd)
  parent := he'.parent.trans he.parent
  umask := he'.umask.trans he.umask
  now := he'.now.trans he.now

/-- An edit of an entry of a directory edits the directory. -/
theorem up {c : Name} (he : Edit (p ++ [c]) h h') (hne : p ≠ []) : Edit p h h' := by
  have hoff : ∀ q, ¬p <+: q → h'.tree.get q = h.tree.get q := by
    intro q hq
    refine he.off q (fun hc => hq ((List.prefix_append p [c]).trans hc)) ?_
    rw [List.dropLast_concat]
    rintro rfl
    exact hq (List.prefix_refl _)
  exact ⟨he.wf, fun q hq _ => hoff q hq, by rw [hoff _ (not_prefix_dropLast hne)], he.umask, he.now⟩

/-- An edit of what lies beneath a directory edits the directory. -/
theorem above {q : HostPath} (hpq : p <+: q) (hne : p ≠ []) (he : Edit q h h') : Edit p h h' := by
  obtain ⟨s, rfl⟩ := hpq
  induction s using List.reverseRecOn with
  | nil => exact List.append_nil p ▸ he
  | append_singleton s c ih =>
    rw [← List.append_assoc] at he
    exact ih (he.up (by simp [hne]))

/-- The directory above the path passes on what it did. -/
theorem groupBit_eq (he : Edit p h h') : groupBit h'.tree p.dropLast = groupBit h.tree p.dropLast := groupBit_of_lasting he.parent

/-- Directories stay directories, apart from those at and beneath the path. -/
theorem isDirAt_eq (he : Edit p h h') {q : HostPath} (hq : ¬p <+: q) : isDirAt h'.tree q = isDirAt h.tree q := by
  by_cases h0 : q = []
  · rw [h0, isDirAt_nil, isDirAt_nil]
  · have hmap : (h'.tree.get q).map Node.isDir = (h.tree.get q).map Node.isDir := by
      by_cases hd : q = p.dropLast
      · have := congrArg (Option.map Node.isDir) he.parent
        rw [hd]
        simpa [Option.map_map, Function.comp_def] using this
      · rw [he.off q hq hd]
    rw [isDirAt, isDirAt, nodeAt_of_ne h0, nodeAt_of_ne h0]
    cases hg : h'.tree.get q <;> cases hg' : h.tree.get q <;> simp_all

end Edit

section calls

variable {h : Host} (hw : h.tree.WF) {p : HostPath}

include hw

/-- A directory that is touched has lost nothing but its times. -/
theorem lasting_touch {q : HostPath} (hd : isDirAt h.tree q = true) (now : Int) :
    ((h.tree.get q).map (·.touched now)).map Node.lasting = (h.tree.get q).map Node.lasting := by
  cases hg : h.tree.get q with
  | none => rfl
  | some n =>
    have hne : q ≠ [] := by
      rintro rfl
      rw [hw.get_nil] at hg
      cases hg
    obtain ⟨m, hm, hdir⟩ := (isDirAt_iff hne).mp hd
    rw [hg, Option.some.injEq] at hm
    simp [hm ▸ hdir]

theorem edit_addEntry (hne : p ≠ []) (hp : Ordinary p) (hd : isDirAt h.tree p.dropLast = true) (hn : h.tree.get p = none)
    (c : Contents) (perm : Nat) : Edit p h (h.addEntry p c perm) where
  wf := addEntry_wf hw hne hp hd hn c perm
  off q hq hqd := by
    have hqp : q ≠ p := fun he => hq (he ▸ List.prefix_refl _)
    rw [addEntry_get h hne, if_neg hqp, if_neg hqd]
  parent := by
    rw [addEntry_get h hne, if_neg (dropLast_ne_self hne), if_pos rfl]
    exact lasting_touch hw hd h.now
  umask := rfl
  now := rfl

theorem edit_dropEntry (hne : p ≠ []) (hd : isDirAt h.tree p.dropLast = true) (hl : ∀ c, h.tree.get (p ++ [c]) = none) :
    Edit p h (h.dropEntry p) where
  wf := dropEntry_wf hw hl
  off q hq hqd := by
    have hqp : q ≠ p := fun he => hq (he ▸ List.prefix_refl _)
    rw [dropEntry_get h hne, if_neg hqp, if_neg hqd]
  parent := by
    rw [dropEntry_get h hne, if_neg (dropLast_ne_self hne), if_pos rfl]
    exact lasting_touch hw hd h.now
  umask := rfl
  now := rfl

theorem edit_alter {n : Node} {f : Node → Node} (hn : h.tree.get p = some n) (hf : (f n).isDir = n.isDir) :
    Edit p h (h.alter p f) := by
  have hne : p ≠ [] := by
    rintro rfl
    rw [hw.get_nil] at hn
    cases hn
  refine ⟨alter_wf_at hw hn hf, fun q hq _ => ?_, ?_, rfl, rfl⟩
  · have hqp : q ≠ p := fun he => hq (he ▸ List.prefix_refl _)
    rw [alter_get, if_neg hqp]
  · rw [alter_get, if_neg (dropLast_ne_self hne)]

/-- Whatever comes of it, `remove` edits its path. -/
theorem remove_edit (hne : p ≠ []) (hp : Ordinary p) (hd : isDirAt h.tree p.dropLast = true) : Edit p h (h.remove p).2 := by
  rw [remove_real hw hne hp hd]
  cases hn : h.tree.get p with
  | none => exact Edit.refl hw p
  | some n =>
    dsimp only
    split
    · exact Edit.refl hw p
    · rename_i hempty
      exact edit_dropEntry hw hne hd (names_eq_nil.mp (not_not.mp hempty))

/-- What has been made where nothing was has nothing beneath it. -/
theorem addEntry_beneath (hne : p ≠ []) (hn : h.tree.get p = none) (c : Contents) (perm : Nat) {s : List Name} (hs : s ≠ []) :
    (h.addEntry p c perm).tree.get (p ++ s) = none := by
  have h1 : p ++ s ≠ p := by simpa using hs
  have h2 : p ++ s ≠ p.dropLast := by
    intro he
    have := congrArg List.length he
    rw [List.length_append, List.length_dropLast] at this
    have := List.length_pos_of_ne_nil hs
    omega
  rw [addEntry_get h hne, if_neg h1, if_neg h2]
  exact hw.rooted.get_under_none hne hn (List.prefix_append _ _)

end calls

/-- `remove_all` of a path in a real directory is an edit of it. -/
theorem drops_edit {p : HostPath} (hne : p ≠ []) : Drops p (Edit p) where
  refl _ hw := Edit.refl hw p
  step h h' q hw hpq hs hl he := by
    have hq : q ≠ [] := by
      rintro rfl
      exact hne (List.prefix_nil.mp hpq)
    exact (Edit.above hpq hne (edit_dropEntry hw hq (hw.isDirAt_parent hs) hl)).trans he

/-! ## Renames -/

/-- A subtree has moved, in place of what was at its destination. -/
structure Moved (src dst : HostPath) (h h' : Host) : Prop where
  wf : h'.tree.WF
  there : ∀ s, h'.tree.get (dst ++ s) = h.tree.get (src ++ s)
  gone : ∀ q, src <+: q → h'.tree.get q = none
  off : ∀ q, ¬dst <+: q → ¬src <+: q → q ≠ src.dropLast → q ≠ dst.dropLast → h'.tree.get q = h.tree.get q
  lasting : ∀ q, ¬dst <+: q → ¬src <+: q → (h'.tree.get q).map Node.lasting = (h.tree.get q).map Node.lasting
  umask : h'.umask = h.umask
  now : h'.now = h.now

/-- What `rename` takes at its destination in place of a node. -/
def Node.takes (t : Tree) (dst : HostPath) (n : Node) : Prop :=
  ∀ m, t.get dst = some m → m.isDir = n.isDir ∧ ∀ c, t.get (dst ++ [c]) = none

theorem rename_moves {h : Host} (hw : h.tree.WF) {src dst : HostPath} {n : Node} (hn : h.tree.get src = some n) (hne : dst ≠ [])
    (hp : Ordinary dst) (hd : isDirAt h.tree dst.dropLast = true) (hapart : ∀ q, src <+: q → dst <+: q → False)
    (hdirs : src.dropLast ≠ dst.dropLast) (h1 : ¬dst <+: src.dropLast) (h2 : ¬src <+: dst.dropLast) (ht : n.takes h.tree dst) :
    ∃ h', h.rename src dst = (.ok (), h') ∧ Moved src dst h h' := by
  have hin : ¬src <+: dst := fun hc => hapart dst hc (List.prefix_refl _)
  have hsrc : src ≠ [] := by
    rintro rfl
    rw [hw.get_nil] at hn
    cases hn
  have hrun : h.rename src dst = (.ok (), h.moveEntry src dst) := by
    rw [rename_real hw hn hne hp hd hin]
    cases hm : h.tree.get dst with
    | none => rfl
    | some m =>
      obtain ⟨hmd, hempty⟩ := ht m hm
      have hnames : h.tree.names dst = [] := names_eq_nil.mpr hempty
      cases hdir : n.isDir <;> simp [hmd, hdir, hnames]
  have hget := moveEntry_get h hsrc hne h1 h2 hdirs
  refine ⟨_, hrun, moveEntry_wf hw hsrc hne hin hp hd, fun s => ?_, fun q hq => ?_, fun q hdq hsq hs hdd => ?_, fun q hdq hsq => ?_,
    rfl, rfl⟩
  · rw [hget, if_pos (List.prefix_append _ _), List.drop_left]
  · rw [hget, if_neg (fun hc => hapart q hq hc), if_pos hq]
  · rw [hget, if_neg hdq, if_neg hsq, if_neg (by simp [hs, hdd])]
  · rw [hget, if_neg hdq, if_neg hsq]
    split
    · rename_i hpar
      refine lasting_touch hw ?_ h.now
      rcases hpar with rfl | rfl
      · exact hw.isDirAt_parent (by rw [hn]; rfl)
      · exact hd
    · rfl

/-! ## Looking at a tree -/

/-- What is seen at a path: everything, but within one directory not the times of directories. -/
def Tree.look (own : HostPath) (t : Tree) (q : HostPath) : Option Node :=
  if own <+: q then (t.get q).map Node.lasting else t.get q

section look

variable {own : HostPath} {t t' : Tree} {q : HostPath}

theorem Tree.look_contents : (t.look own q).map Node.contents = (t.get q).map Node.contents := by
  unfold Tree.look
  split
  · simp [Option.map_map, Function.comp_def]
  · rfl

theorem contents_of_look (h : t'.look own q = t.look own q) : (t'.get q).map Node.contents = (t.get q).map Node.contents := by
  rw [← @Tree.look_contents own t', h, Tree.look_contents]

theorem look_isSome : (t.look own q).isSome = (t.get q).isSome := by
  unfold Tree.look
  split <;> simp

theorem get_none_of_look (h : t'.look own q = t.look own q) : t'.get q = none ↔ t.get q = none := by
  rw [← Option.not_isSome_iff_eq_none, ← Option.not_isSome_iff_eq_none, ← @look_isSome own t', h, look_isSome]

theorem look_of_lasting (h : (t'.get q).map Node.lasting = (t.get q).map Node.lasting) (ho : own <+: q) :
    t'.look own q = t.look own q := by
  rw [Tree.look, Tree.look, if_pos ho, if_pos ho, h]

theorem isDirAt_of_contents (h : (t'.get q).map Node.contents = (t.get q).map Node.contents) : isDirAt t' q = isDirAt t q := by
  by_cases h0 : q = []
  · rw [h0, isDirAt_nil, isDirAt_nil]
  · rw [isDirAt, isDirAt, nodeAt_of_ne h0, nodeAt_of_ne h0]
    cases hg : t'.get q <;> cases hg' : t.get q <;> simp_all [Node.isDir]

theorem isDirAt_of_look (h : t'.look own q = t.look own q) : isDirAt t' q = isDirAt t q :=
  isDirAt_of_contents (contents_of_look h)

/-- An edit within a directory is seen at and beneath its path only. -/
theorem Edit.look {p : HostPath} {h h' : Host} (he : Edit p h h') (ho : own <+: p.dropLast) {q : HostPath} (hq : ¬p <+: q) :
    h'.tree.look own q = h.tree.look own q := by
  by_cases hd : q = p.dropLast
  · subst hd
    exact look_of_lasting he.parent ho
  · rw [Tree.look, Tree.look, he.off q hq hd]

theorem Moved.look {src dst : HostPath} {h h' : Host} (hm : Moved src dst h h') (hs : own <+: src.dropLast)
    (hd : own <+: dst.dropLast) {q : HostPath} (hsq : ¬src <+: q) (hdq : ¬dst <+: q) : h'.tree.look own q = h.tree.look own q := by
  by_cases ho : own <+: q
  · exact look_of_lasting (hm.lasting q hdq hsq) ho
  · rw [Tree.look, Tree.look, hm.off q hdq hsq (fun he => ho (he ▸ hs)) (fun he => ho (he ▸ hd))]

end look

end TribiosVfs

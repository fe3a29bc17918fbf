import TribiosVfs.Lemmas.HostSpecs
import TribiosVfs.Lemmas.Calls
import TribiosVfs.WorkspaceEngine

/-!
# What a call leaves alone

A call changes the entries at the paths it names and the times of the directories above them, as long as no symlink lies on the
way to these paths. `Frame` says so with the set of paths that may have changed. Nodes are compared by inode and contents.
-/

namespace TribiosVfs

/-! ## What is compared -/

/-- What is compared of a node. -/
def Node.seen (n : Node) : Nat × Contents := (n.attrs.ino, n.contents)

/-- What is compared of the entry at a path. -/
def Tree.sees (t : Tree) (q : HostPath) : Option (Nat × Contents) := (t.get q).map Node.seen

theorem Node.contents_of_seen {n m : Node} (h : n.seen = m.seen) : n.contents = m.contents :=
  congrArg Prod.snd h

theorem Node.isDir_of_seen {n m : Node} (h : n.seen = m.seen) : n.isDir = m.isDir := by
  unfold Node.isDir
  rw [Node.contents_of_seen h]

theorem Node.isLnk_of_seen {n m : Node} (h : n.seen = m.seen) : n.isLnk = m.isLnk := by
  unfold Node.isLnk
  rw [Node.contents_of_seen h]

@[simp] theorem Node.seen_touched (now : Int) (n : Node) : (n.touched now).seen = n.seen := rfl

theorem Tree.sees_eq_none {t : Tree} {q : HostPath} : t.sees q = none ↔ t.get q = none := by
  simp [Tree.sees]

/-- Where both trees look alike, an entry of one is an entry of the other. -/
theorem Tree.get_of_sees {t t' : Tree} {q : HostPath} (h : t'.sees q = t.sees q) {n : Node}
    (hn : t'.get q = some n) : ∃ m, t.get q = some m ∧ n.seen = m.seen := by
  unfold Tree.sees at h
  rw [hn, Option.map_some] at h
  obtain ⟨m, hm, he⟩ := Option.map_eq_some_iff.mp h.symm
  exact ⟨m, hm, he.symm⟩

theorem isDirAt_of_sees {t t' : Tree} {q : HostPath} (h : t'.sees q = t.sees q) :
    isDirAt t' q = isDirAt t q := by
  by_cases hq : q = []
  · simp [hq]
  · rw [Bool.eq_iff_iff, isDirAt_iff hq, isDirAt_iff hq]
    constructor
    · rintro ⟨n, hn, hd⟩
      obtain ⟨m, hm, he⟩ := Tree.get_of_sees h hn
      exact ⟨m, hm, by rw [← Node.isDir_of_seen he]; exact hd⟩
    · rintro ⟨n, hn, hd⟩
      obtain ⟨m, hm, he⟩ := Tree.get_of_sees h.symm hn
      exact ⟨m, hm, by rw [← Node.isDir_of_seen he]; exact hd⟩

/-! ## Clear paths -/

/-- A path with no symlink among its proper ancestors. -/
structure Clear (t : Tree) (q : HostPath) : Prop where
  ordinary : Ordinary q
  ne_nil : q ≠ []
  plain : PlainUnder t [] q

/-- A proper initial part of a concatenation lies in the first part or is the first part with a proper part of the second. -/
theorem initial_append_cases {a d p : List Name} (h : a <+: d ++ p) (hne : a ≠ d ++ p) :
    a <+: d ∨ ∃ a', a = d ++ a' ∧ a' <+: p ∧ a' ≠ p := by
  rcases List.prefix_or_prefix_of_prefix h (List.prefix_append d p) with hd | ⟨a', rfl⟩
  · exact Or.inl hd
  · refine Or.inr ⟨a', rfl, (List.prefix_append_right_inj d).mp h, ?_⟩
    rintro rfl
    exact hne rfl

theorem clear_under {t : Tree} (hw : t.WF) {d p : HostPath} (hd : isDirAt t d = true) (ho : Ordinary (d ++ p))
    (hne : d ++ p ≠ []) (hp : PlainUnder t d p) : Clear t (d ++ p) := by
  refine ⟨ho, hne, fun a ha hap hane n hn => ?_⟩
  have hdir : ∀ b, isDirAt t b = true → b = a → n.isLnk = false := by
    rintro b hb rfl
    obtain ⟨m, hm, hmd⟩ := (isDirAt_iff ha).mp hb
    rw [List.nil_append] at hn
    rw [hm, Option.some.injEq] at hn
    exact hn ▸ Node.isLnk_of_isDir hmd
  rcases initial_append_cases hap hane with had | ⟨a', rfl, hap', hane'⟩
  · exact hdir a (hw.isDirAt_initial hd had) rfl
  · by_cases h0 : a' = []
    · exact hdir d hd (by rw [h0, List.append_nil])
    · exact hp a' h0 hap' hane' n hn

/-- The path of a directory, and of an entry of it. -/
theorem clear_of_isDirAt {t : Tree} (hw : t.WF) {q : HostPath} (ho : Ordinary q) (hne : q ≠ [])
    (hd : isDirAt t q.dropLast = true) : Clear t q := by
  have hq := List.dropLast_append_getLast hne
  have := clear_under (p := [q.getLast hne]) hw hd (by rw [hq]; exact ho) (by simp) (fun a ha hap hane => by
    rcases List.prefix_cons_iff.mp hap with rfl | ⟨t, rfl, ht⟩
    · exact absurd rfl ha
    · rw [List.prefix_nil.mp ht] at hane
      exact absurd rfl hane)
  rwa [hq] at this

/-- The entry at a clear path is no symlink. -/
def NotLink (t : Tree) (q : HostPath) : Prop := ∀ n, t.get q = some n → n.isLnk = false

/-- A clear path leads to itself, or nowhere. -/
theorem Clear.resolve {h : Host} (hw : h.tree.WF) {q : HostPath} (hc : Clear h.tree q) {follow : Bool}
    (hl : follow = true → NotLink h.tree q) :
    (isDirAt h.tree q.dropLast = true ∧ h.resolve follow q = .ok q) ∨
      (h.tree.get q = none ∧ ∃ x, h.resolve follow q = .error x) := by
  by_cases hd : isDirAt h.tree q.dropLast = true
  · exact Or.inl ⟨hd, resolve_real hw hc.ordinary hd hl⟩
  · rw [Bool.not_eq_true] at hd
    refine Or.inr ⟨hw.get_none_of_parent hd, ?_⟩
    obtain ⟨x, hx, -⟩ := resolve_dead hw (isDirAt_nil h.tree) (p := q) (by simpa using hc.ordinary) hc.plain (by simpa using hd) follow
    exact ⟨x, by simpa using hx⟩

/-- A path with directories above it, as far as there is anything, leads to itself, or is missing. -/
theorem Clear.resolve_absent {h : Host} (hw : h.tree.WF) {q : HostPath} (hc : Clear h.tree q) (hdirs : DirsUnder h.tree [] q) :
    (isDirAt h.tree q.dropLast = true ∧ h.resolve false q = .ok q) ∨
      (h.tree.get q = none ∧ h.resolve false q = .error .ENOENT) := by
  by_cases hd : isDirAt h.tree q.dropLast = true
  · exact Or.inl ⟨hd, resolve_real hw hc.ordinary hd (fun hf => by cases hf)⟩
  · rw [Bool.not_eq_true] at hd
    obtain ⟨x, hx, hmissing⟩ :=
      resolve_dead hw (isDirAt_nil h.tree) (p := q) (by simpa using hc.ordinary) hc.plain (by simpa using hd) false
    rw [List.nil_append, hmissing hdirs] at hx
    exact Or.inr ⟨hw.get_none_of_parent hd, hx⟩

/-! ## Frames -/

/-- Outside a set of paths a host looks as it did before, and it is well formed. -/
structure Frame (R : HostPath → Prop) (h h' : Host) : Prop where
  wf : h'.tree.WF
  same : ∀ q, ¬R q → h'.tree.sees q = h.tree.sees q

section frames

variable {R R' : HostPath → Prop} {h h' h'' : Host}

theorem Frame.refl (hw : h.tree.WF) : Frame R h h := ⟨hw, fun _ _ => rfl⟩

theorem Frame.mono (hf : Frame R h h') (hR : ∀ q, R q → R' q) : Frame R' h h' :=
  ⟨hf.wf, fun q hq => hf.same q (fun h => hq (hR q h))⟩

theorem Frame.trans (hf : Frame R h h') (hf' : Frame R h' h'') : Frame R h h'' :=
  ⟨hf'.wf, fun q hq => (hf'.same q hq).trans (hf.same q hq)⟩

end frames

section changes

variable {h : Host} (hw : h.tree.WF) {q : HostPath}

include hw

theorem frame_addEntry (ho : Ordinary q) (hne : q ≠ []) (hd : isDirAt h.tree q.dropLast = true) (hn : h.tree.get q = none)
    (c : Contents) (perm : Nat) : Frame (· = q) h (h.addEntry q c perm) := by
  refine ⟨addEntry_wf hw hne ho hd hn c perm, fun r hr => ?_⟩
  rw [Tree.sees, addEntry_get h hne, if_neg hr]
  split
  · cases hg : h.tree.get r <;> simp [Tree.sees, hg]
  · rfl

theorem frame_dropEntry (hne : q ≠ []) (hl : ∀ n, h.tree.get (q ++ [n]) = none) :
    Frame (· = q) h (h.dropEntry q) := by
  refine ⟨dropEntry_wf hw hl, fun r hr => ?_⟩
  rw [Tree.sees, dropEntry_get h hne, if_neg hr]
  split
  · cases hg : h.tree.get r <;> simp [Tree.sees, hg]
  · rfl

theorem frame_alter_at {f : Node → Node} {n : Node} (hn : h.tree.get q = some n) (hf : (f n).isDir = n.isDir) :
    Frame (· = q) h (h.alter q f) := by
  refine ⟨alter_wf_at hw hn hf, fun r hr => ?_⟩
  rw [Tree.sees, alter_get, if_neg hr]
  rfl

theorem frame_remove (hc : Clear h.tree q) : Frame (· = q) h (h.remove q).2 := by
  unfold Host.remove
  rcases @Clear.resolve _ hw _ hc false (fun hf => by cases hf) with ⟨hd, hr⟩ | ⟨-, x, hr⟩
  · rw [hr]
    simp only [nodeAt_of_ne hc.ne_nil]
    cases hn : h.tree.get q with
    | none => exact Frame.refl hw
    | some n =>
      dsimp only
      split
      · exact Frame.refl hw
      · split
        · exact Frame.refl hw
        · rename_i hnames
          exact frame_dropEntry hw hc.ne_nil (names_eq_nil.mp (not_not.mp hnames))
  · rw [hr]
    cases x <;> exact Frame.refl hw

end changes

end TribiosVfs

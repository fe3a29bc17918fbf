import TribiosVfs.Calls

/-!
# Where a path leads

The kernel's walk on a well-formed tree. Through real directories a path leads to itself (`resolve_real`); a path with a missing
or non-directory parent and no symlink on the way leads nowhere (`resolve_dead`). Both give what `lstat` answers at a plain
path.
-/

namespace TribiosVfs

/-- What every host file system keeps: entries lie under directories, and their names are names. -/
structure Tree.WF (t : Tree) : Prop where
  rooted : t.Rooted Node.isDir
  ordinary : ∀ p, (t.get p).isSome → Ordinary p

/-- No proper ancestor of a path beneath a directory is a symlink. -/
def PlainUnder (t : Tree) (dir : HostPath) (p : List Name) : Prop :=
  ∀ a, a ≠ [] → a <+: p → a ≠ p → ∀ n, t.get (dir ++ a) = some n → n.isLnk = false

/-- Every proper ancestor of a path beneath a directory is a directory, or missing. -/
def DirsUnder (t : Tree) (dir : HostPath) (p : List Name) : Prop :=
  ∀ a, a ≠ [] → a <+: p → a ≠ p → ∀ n, t.get (dir ++ a) = some n → n.isDir = true

@[simp] theorem isDirAt_nil (t : Tree) : isDirAt t [] = true := by simp [isDirAt, nodeAt, rootNode, Node.isDir]

theorem nodeAt_of_ne {t : Tree} {p : HostPath} (h : p ≠ []) : nodeAt t p = t.get p := by simp [nodeAt, h]

theorem isDirAt_iff {t : Tree} {p : HostPath} (h : p ≠ []) :
    isDirAt t p = true ↔ ∃ n, t.get p = some n ∧ n.isDir = true := by
  rw [isDirAt, nodeAt_of_ne h]
  cases t.get p <;> simp

theorem isDirAt_eq_false {t : Tree} {p : HostPath} (h : p ≠ []) :
    isDirAt t p = false ↔ ∀ n, t.get p = some n → n.isDir = false := by
  rw [isDirAt, nodeAt_of_ne h]
  cases t.get p <;> simp

theorem Node.contents_of_isDir {n : Node} (h : n.isDir = true) : n.contents = .dir := by
  unfold Node.isDir at h
  split at h
  · assumption
  · cases h

theorem Node.isDir_of_contents {n : Node} (h : n.contents = .dir) : n.isDir = true := by
  unfold Node.isDir
  rw [h]

theorem Node.isLnk_of_isDir {n : Node} (h : n.isDir = true) : n.isLnk = false := by
  unfold Node.isLnk
  rw [Node.contents_of_isDir h]

/-- The parent of an entry is a directory. -/
theorem Tree.WF.isDirAt_parent {t : Tree} (h : t.WF) {p : HostPath} (hp : (t.get p).isSome) : isDirAt t p.dropLast = true := by
  rcases List.eq_nil_or_concat p with rfl | ⟨q, n, rfl⟩
  · exact isDirAt_nil t
  · rw [List.concat_eq_append] at hp ⊢
    rw [List.dropLast_concat]
    rcases h.rooted.parent q n hp with rfl | ⟨v, hv, hd⟩
    · exact isDirAt_nil t
    · by_cases hq : q = []
      · exact hq ▸ isDirAt_nil t
      · exact (isDirAt_iff hq).mpr ⟨v, hv, hd⟩

/-- Every ancestor of a directory is a directory. -/
theorem Tree.WF.isDirAt_initial {t : Tree} (h : t.WF) {p q : HostPath} (hq : isDirAt t q = true) (hpq : p <+: q) :
    isDirAt t p = true := by
  by_cases hp : p = []
  · exact hp ▸ isDirAt_nil t
  · by_cases he : p = q
    · exact he ▸ hq
    · have hqn : q ≠ [] := by
        rintro rfl
        exact hp (List.prefix_nil.mp hpq)
      obtain ⟨n, hn, -⟩ := (isDirAt_iff hqn).mp hq
      exact (isDirAt_iff hp).mpr (h.rooted.ancestor (by rw [hn]; rfl) hpq he hp)

/-- Nothing lies beneath what is no directory. -/
theorem Tree.WF.get_none_of_parent {t : Tree} (h : t.WF) {p : HostPath} (hp : isDirAt t p.dropLast = false) :
    t.get p = none := by
  by_contra hne
  have := h.isDirAt_parent (Option.isSome_iff_ne_none.mpr hne)
  rw [hp] at this
  cases this

theorem Tree.WF.get_nil {t : Tree} (h : t.WF) : t.get [] = none := h.rooted.root

/-- A tree whose entries, one by one, have names and lie under directories. -/
theorem Tree.wf_of_entries {t : Tree}
    (h : ∀ entry ∈ t.entries, entry.1 ≠ [] ∧ Ordinary entry.1 ∧ isDirAt t entry.1.dropLast = true) : t.WF := by
  have hkey : ∀ p, (t.get p).isSome → p ≠ [] ∧ Ordinary p ∧ isDirAt t p.dropLast = true := by
    intro p hp
    have hmem := PathMap.mem_keys.mpr hp
    rw [PathMap.keys, List.mem_dedup, List.mem_map] at hmem
    obtain ⟨entry, hentry, rfl⟩ := hmem
    exact h entry hentry
  refine ⟨⟨?_, fun p n hp => ?_⟩, fun p hp => (hkey p hp).2.1⟩
  · by_contra hne
    exact (hkey [] (Option.isSome_iff_ne_none.mpr hne)).1 rfl
  · by_cases hnil : p = []
    · exact Or.inl hnil
    · have hd := (hkey _ hp).2.2
      rw [List.dropLast_concat] at hd
      exact Or.inr ((isDirAt_iff hnil).mp hd)

/-! ## Through real directories -/

/-- A walk through real directories stands where the segments say. -/
theorem advance_real {t : Tree} {follow : Bool} {pre : List Name} (hn : RelPath.Canonical pre) :
    ∀ (dir : HostPath) (rest : List Name), (∀ q, q <+: pre → isDirAt t (dir ++ q) = true) →
      advance t follow dir (pre ++ rest) = advance t follow (dir ++ pre) rest := by
  induction pre with
  | nil => exact fun dir rest _ => by rw [List.nil_append, List.append_nil]
  | cons c pre ih =>
    intro dir rest hd
    have hc := hn c List.mem_cons_self
    have h0 : isDirAt t dir = true := by simpa using hd [] (List.nil_prefix)
    have h1 : isDirAt t (dir ++ [c]) = true := hd [c] ⟨pre, rfl⟩
    obtain ⟨n, hget, hdir⟩ := (isDirAt_iff (by simp)).mp h1
    rw [List.cons_append, advance, h0, hget]
    simp only [Bool.not_true, Bool.false_eq_true, if_false, hc.ne_nil, hc.ne_dot, hc.ne_dotdot, or_self]
    rw [Node.contents_of_isDir hdir]
    simp only []
    rw [ih (fun m hm => hn m (List.mem_cons_of_mem _ hm)) (dir ++ [c]) rest, List.append_assoc, List.singleton_append]
    intro q hq
    obtain ⟨s, rfl⟩ := hq
    simpa using hd (c :: q) ⟨s, rfl⟩

/-- The last step of a walk that does not follow a symlink there. -/
theorem advance_last {t : Tree} {follow : Bool} {dir : HostPath} {c : Name} (hc : c.Canonical) (hd : isDirAt t dir = true)
    (hl : follow = true → ∀ n, t.get (dir ++ [c]) = some n → n.isLnk = false) :
    advance t follow dir [c] = .done (.ok (dir ++ [c])) := by
  unfold advance
  simp only [hd, Bool.not_true, Bool.false_eq_true, if_false, hc.ne_nil, hc.ne_dot, hc.ne_dotdot, or_self]
  cases hg : t.get (dir ++ [c]) with
  | none => simp
  | some n =>
    cases hcont : n.contents with
    | file data => simp [hcont, advance]
    | dir => simp [hcont, advance]
    | symlink target =>
      have : follow = false := by
        cases follow with
        | false => rfl
        | true =>
          have := hl rfl n hg
          rw [Node.isLnk, hcont] at this
          cases this
      simp [hcont, this]

theorem resolve_eq_of_advance {h : Host} {follow : Bool} {p : HostPath} {r : Except Errno HostPath}
    (ha : advance h.tree follow [] (cPath p) = .done r) : h.resolve follow p = r := by
  rw [Host.resolve, maxLinks, walk, ha]

/-- A path whose parent is a directory leads to itself, unless it is a symlink to be followed. -/
theorem resolve_real {h : Host} (hw : h.tree.WF) {follow : Bool} {p : HostPath} (hp : Ordinary p)
    (hd : isDirAt h.tree p.dropLast = true)
    (hl : follow = true → ∀ n, h.tree.get p = some n → n.isLnk = false) : h.resolve follow p = .ok p := by
  apply resolve_eq_of_advance
  rw [cPath_eq_self hp.2]
  rcases List.eq_nil_or_concat p with rfl | ⟨q, c, rfl⟩
  · rfl
  · rw [List.concat_eq_append] at hp hd hl ⊢
    rw [List.dropLast_concat] at hd
    have hq : Ordinary q := hp.of_initial (List.prefix_append _ _)
    rw [advance_real hq.1 [] [c] (fun a ha => by simpa using hw.isDirAt_initial hd ha), List.nil_append]
    exact advance_last (hp.1 c (by simp)) hd hl

/-- An entry that is there, and is no symlink to be followed, is where its path leads. -/
theorem resolve_some {h : Host} (hw : h.tree.WF) {follow : Bool} {p : HostPath} {n : Node} (hn : h.tree.get p = some n)
    (hl : follow = true → n.isLnk = false) : h.resolve follow p = .ok p := by
  have hs : (h.tree.get p).isSome := by rw [hn]; rfl
  refine resolve_real hw (hw.ordinary p hs) (hw.isDirAt_parent hs) (fun hf m hm => ?_)
  rw [hn, Option.some.injEq] at hm
  exact hm ▸ hl hf

/-! ## Plain paths -/

theorem PlainUnder.tail {t : Tree} {dir : HostPath} {c : Name} {p : List Name} (h : PlainUnder t dir (c :: p)) :
    PlainUnder t (dir ++ [c]) p := by
  intro a ha hap hne n hn
  refine h (c :: a) (by simp) ?_ (by simpa using hne) n (by simpa using hn)
  obtain ⟨s, rfl⟩ := hap
  exact ⟨s, rfl⟩

theorem DirsUnder.tail {t : Tree} {dir : HostPath} {c : Name} {p : List Name} (h : DirsUnder t dir (c :: p)) :
    DirsUnder t (dir ++ [c]) p := by
  intro a ha hap hne n hn
  refine h (c :: a) (by simp) ?_ (by simpa using hne) n (by simpa using hn)
  obtain ⟨s, rfl⟩ := hap
  exact ⟨s, rfl⟩

/-- A walk with no symlink on the way ends at its path, or fails because the parent is no directory. What is missing is then what it
says, where nothing on the way is anything but a directory. -/
theorem advance_plain {t : Tree} (hw : t.WF) {todo : List Name} (hn : RelPath.Canonical todo) :
    ∀ dir, isDirAt t dir = true → PlainUnder t dir todo → isDirAt t (dir ++ todo).dropLast = false →
      ∀ follow, ∃ e, advance t follow dir todo = .done (.error e) ∧ (DirsUnder t dir todo → e = .ENOENT) := by
  induction todo with
  | nil =>
    intro dir hd _ hf
    rw [List.append_nil, hw.isDirAt_initial hd (List.dropLast_prefix dir)] at hf
    cases hf
  | cons c todo ih =>
    intro dir hd hp hf follow
    have hc := hn c List.mem_cons_self
    have htodo : todo ≠ [] := by
      rintro rfl
      rw [List.dropLast_concat, hd] at hf
      cases hf
    unfold advance
    simp only [hd, Bool.not_true, Bool.false_eq_true, if_false, hc.ne_nil, hc.ne_dot, hc.ne_dotdot, or_self]
    cases hg : t.get (dir ++ [c]) with
    | none => exact ⟨.ENOENT, by simp [htodo]⟩
    | some n =>
      have hnl : n.isLnk = false := hp [c] (by simp) ⟨todo, rfl⟩ (by simpa using Ne.symm htodo) n hg
      have hrest : ∃ e, advance t follow (dir ++ [c]) todo = .done (.error e) ∧ (DirsUnder t dir (c :: todo) → e = .ENOENT) := by
        by_cases hdir : isDirAt t (dir ++ [c]) = true
        · obtain ⟨e, he, hmissing⟩ :=
            ih (fun m hm => hn m (List.mem_cons_of_mem _ hm)) (dir ++ [c]) hdir hp.tail (by simpa using hf) follow
          exact ⟨e, he, fun hdirs => hmissing hdirs.tail⟩
        · obtain ⟨d, todo, rfl⟩ := List.exists_cons_of_ne_nil htodo
          refine ⟨.ENOTDIR, ?_, fun hdirs => ?_⟩
          · unfold advance
            simp only [hdir, Bool.not_false, if_true]
          · have hnd := hdirs [c] (by simp) ⟨d :: todo, rfl⟩ (by simp) n hg
            exact absurd ((isDirAt_iff (by simp)).mpr ⟨n, hg, hnd⟩) hdir
      cases hcont : n.contents with
      | symlink target => rw [Node.isLnk, hcont] at hnl; cases hnl
      | file data => simpa only [hcont] using hrest
      | dir => simpa only [hcont] using hrest

/-- A plain path whose parent is no directory leads nowhere. -/
theorem resolve_dead {h : Host} (hw : h.tree.WF) {dir : HostPath} {p : List Name} (hdir : isDirAt h.tree dir = true)
    (hordinary : Ordinary (dir ++ p)) (hp : PlainUnder h.tree dir p) (hd : isDirAt h.tree (dir ++ p).dropLast = false)
    (follow : Bool) : ∃ e, h.resolve follow (dir ++ p) = .error e ∧ (DirsUnder h.tree dir p → e = .ENOENT) := by
  have hpre : Ordinary dir := hordinary.of_initial (List.prefix_append _ _)
  obtain ⟨e, he, hmissing⟩ := advance_plain hw hordinary.suffix.1 dir hdir hp hd follow
  refine ⟨e, resolve_eq_of_advance ?_, hmissing⟩
  rw [cPath_eq_self hordinary.2, advance_real hpre.1 [] p (fun a ha => by simpa using hw.isDirAt_initial hdir ha),
    List.nil_append, he]

/-- `lstat` at a plain path answers what the tree holds there. -/
theorem lstat_plain {h : Host} (hw : h.tree.WF) {dir : HostPath} {p : List Name} (hdir : isDirAt h.tree dir = true)
    (hordinary : Ordinary (dir ++ p)) (hne : dir ++ p ≠ []) (hp : PlainUnder h.tree dir p) :
    (h.lstat (dir ++ p)).2 = h ∧ (h.lstat (dir ++ p)).1.toOption = h.tree.get (dir ++ p) := by
  unfold Host.lstat Host.atNode Host.at
  by_cases hd : isDirAt h.tree (dir ++ p).dropLast = true
  · rw [resolve_real hw hordinary hd (fun hf => by cases hf)]
    simp only [nodeAt_of_ne hne]
    cases h.tree.get (dir ++ p) <;> simp [Except.toOption]
  · rw [Bool.not_eq_true] at hd
    obtain ⟨e, he, -⟩ := resolve_dead hw hdir hordinary hp hd false
    rw [he]
    simp [Except.toOption, hw.get_none_of_parent hd]

end TribiosVfs

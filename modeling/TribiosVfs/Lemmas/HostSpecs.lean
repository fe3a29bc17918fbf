import TribiosVfs.Lemmas.Walk

/-!
# System calls at real paths

What each system call does where the parent of its path is a directory: the resolution drops out, and the call is a function of
the entry at the path. For each change of the tree: what `get` reads after it, and that the tree stays well formed.
-/

namespace TribiosVfs

@[simp] theorem Node.touched_isDir (now : Int) (n : Node) : (n.touched now).isDir = n.isDir := rfl

theorem dropLast_ne_self {p : HostPath} (h : p ≠ []) : p.dropLast ≠ p := by
  intro e
  have := congrArg List.length e
  rw [List.length_dropLast] at this
  have := List.length_pos_of_ne_nil h
  omega

/-! ## The entry a call finds -/

section entry

variable {h : Host} (hw : h.tree.WF) {p : HostPath} {α : Type}

include hw

theorem atNode_some {follow : Bool} {f : HostPath → Node → Except Errno α × Host} {n : Node} (hn : h.tree.get p = some n)
    (hl : follow = true → n.isLnk = false) : h.atNode follow p f = f p n := by
  have hne : p ≠ [] := by
    rintro rfl
    rw [hw.get_nil] at hn
    cases hn
  rw [Host.atNode, Host.at, resolve_some hw hn hl]
  simp only [nodeAt_of_ne hne, hn]

theorem atMissing_real {f : HostPath → Except Errno α × Host} (hp : Ordinary p)
    (hd : isDirAt h.tree p.dropLast = true) (hne : p ≠ []) :
    h.atMissing p f = match h.tree.get p with
      | some _ => (.error .EEXIST, h)
      | none => f p := by
  rw [Host.atMissing, Host.at, resolve_real hw hp hd (fun hf => by cases hf)]
  cases hn : h.tree.get p <;> simp only [nodeAt_of_ne hne, hn]

end entry

/-! ## Changes of the tree -/

theorem addEntry_get (h : Host) {p : HostPath} (hne : p ≠ []) (c : Contents) (perm : Nat) (q : HostPath) :
    (h.addEntry p c perm).tree.get q =
      if q = p then some ⟨c, ⟨h.nextIno, perm, h.now, h.now, h.now⟩⟩
      else if q = p.dropLast then (h.tree.get q).map (·.touched h.now) else h.tree.get q := by
  have hd := dropLast_ne_self hne
  simp only [Host.addEntry, Host.touch, PathMap.get_modify, PathMap.get_set]
  by_cases hq : q = p
  · subst hq
    simp [Ne.symm hd]
  · simp [hq]

theorem dropEntry_get (h : Host) {p : HostPath} (hne : p ≠ []) (q : HostPath) :
    (h.dropEntry p).tree.get q =
      if q = p then none else if q = p.dropLast then (h.tree.get q).map (·.touched h.now) else h.tree.get q := by
  have hd := dropLast_ne_self hne
  simp only [Host.dropEntry, Host.touch, PathMap.get_modify, PathMap.get_erase]
  by_cases hq : q = p
  · subst hq
    simp [Ne.symm hd]
  · simp [hq]

theorem alter_get (h : Host) (p : HostPath) (f : Node → Node) (q : HostPath) :
    (h.alter p f).tree.get q = if q = p then (h.tree.get q).map f else h.tree.get q :=
  PathMap.get_modify h.tree p q f

theorem not_prefix_dropLast {p : HostPath} (h : p ≠ []) : ¬p <+: p.dropLast := by
  intro hp
  have := hp.length_le
  rw [List.length_dropLast] at this
  have := List.length_pos_of_ne_nil h
  omega

/-- Moving a subtree between different directories, neither inside the other. -/
theorem moveEntry_get (h : Host) {src dst : HostPath} (hs : src ≠ []) (hd : dst ≠ []) (h1 : ¬dst <+: src.dropLast)
    (h2 : ¬src <+: dst.dropLast) (h3 : src.dropLast ≠ dst.dropLast) (q : HostPath) :
    (h.moveEntry src dst).tree.get q =
      if dst <+: q then h.tree.get (src ++ q.drop dst.length)
      else if src <+: q then none
      else if q = src.dropLast ∨ q = dst.dropLast then (h.tree.get q).map (·.touched h.now) else h.tree.get q := by
  have h4 := not_prefix_dropLast hs
  have h5 := not_prefix_dropLast hd
  simp only [Host.moveEntry, Host.touch, PathMap.get_modify, PathMap.get_move]
  by_cases hdq : dst <+: q
  · have e1 : q ≠ src.dropLast := by rintro rfl; exact h1 hdq
    have e2 : q ≠ dst.dropLast := by rintro rfl; exact h5 hdq
    simp [hdq, e1, e2]
  · by_cases hsq : src <+: q
    · have e1 : q ≠ src.dropLast := by rintro rfl; exact h4 hsq
      have e2 : q ≠ dst.dropLast := by rintro rfl; exact h2 hsq
      simp [hdq, hsq, e1, e2]
    · by_cases e1 : q = src.dropLast
      · have e2 : q ≠ dst.dropLast := by rw [e1]; exact h3
        simp [e1, h3]
        simp [← e1, hdq, hsq]
      · by_cases e2 : q = dst.dropLast
        · simp [e2, Ne.symm h3]
          simp [← e2, hdq, hsq]
        · simp [hdq, hsq, e1, e2]

/-! ## Changes keep the tree well formed -/

theorem touch_wf {h : Host} (hw : h.tree.WF) (p : HostPath) : (h.touch p).tree.WF where
  rooted := hw.rooted.modify p _ (fun _ => rfl)
  ordinary q hq := hw.ordinary q (by
    rw [Host.touch, PathMap.get_modify] at hq
    split at hq <;> simpa using hq)

theorem alter_wf {h : Host} (hw : h.tree.WF) (p : HostPath) {f : Node → Node} (hf : ∀ n, (f n).isDir = n.isDir) :
    (h.alter p f).tree.WF where
  rooted := hw.rooted.modify p _ hf
  ordinary q hq := hw.ordinary q (by
    rw [alter_get] at hq
    split at hq <;> simpa using hq)

/-- A change in place of the node that is there, which keeps whether it is a directory. -/
theorem alter_wf_at {h : Host} (hw : h.tree.WF) {p : HostPath} {f : Node → Node} {n : Node} (hn : h.tree.get p = some n)
    (hf : (f n).isDir = n.isDir) : (h.alter p f).tree.WF where
  rooted := hw.rooted.congr (fun q => by
    rw [alter_get]
    by_cases hq : q = p
    · rw [if_pos hq, hq, hn, Option.map_some, Option.map_some, Option.map_some, hf]
    · rw [if_neg hq])
  ordinary q hq := hw.ordinary q (by
    rw [alter_get] at hq
    split at hq <;> simpa using hq)

/-- A new entry under a directory, where nothing is. -/
theorem addEntry_wf {h : Host} (hw : h.tree.WF) {p : HostPath} (hne : p ≠ []) (hp : Ordinary p)
    (hd : isDirAt h.tree p.dropLast = true) (hn : h.tree.get p = none) (c : Contents) (perm : Nat) :
    (h.addEntry p c perm).tree.WF := by
  unfold Host.addEntry
  refine touch_wf (h := { h with tree := h.tree.set p _, nextIno := h.nextIno + 1 }) ⟨?_, fun q hq => ?_⟩ _
  · obtain ⟨d, n, rfl⟩ := List.eq_nil_or_concat p |>.resolve_left hne
    rw [List.concat_eq_append] at hd hn ⊢
    rw [List.dropLast_concat] at hd
    refine hw.rooted.set _ ?_ (Or.inr fun k => hw.rooted.get_under_none (by simp) hn (List.prefix_append _ _))
    by_cases hd0 : d = []
    · exact Or.inl hd0
    · exact Or.inr ((isDirAt_iff hd0).mp hd)
  · simp only [PathMap.get_set] at hq
    split at hq
    · rename_i he
      exact he ▸ hp
    · exact hw.ordinary q hq

/-- The removal of an entry with none beneath it. -/
theorem dropEntry_wf {h : Host} (hw : h.tree.WF) {p : HostPath} (hl : ∀ n, h.tree.get (p ++ [n]) = none) :
    (h.dropEntry p).tree.WF := by
  unfold Host.dropEntry
  refine touch_wf (h := { h with tree := h.tree.erase p }) ⟨hw.rooted.erase hl, fun q hq => ?_⟩ _
  simp only [PathMap.get_erase] at hq
  split at hq
  · cases hq
  · exact hw.ordinary q hq

/-- The move of a subtree to a place under a directory, not inside itself. -/
theorem moveEntry_wf {h : Host} (hw : h.tree.WF) {src dst : HostPath} (hs : src ≠ []) (hne : dst ≠ [])
    (hin : ¬src <+: dst) (hp : Ordinary dst) (hd : isDirAt h.tree dst.dropLast = true) : (h.moveEntry src dst).tree.WF := by
  unfold Host.moveEntry
  refine touch_wf (touch_wf (h := { h with tree := h.tree.move src dst }) ⟨?_, fun q hq => ?_⟩ _) _
  · obtain ⟨d, n, rfl⟩ := List.eq_nil_or_concat dst |>.resolve_left hne
    rw [List.concat_eq_append] at hd hin ⊢
    rw [List.dropLast_concat] at hd
    refine hw.rooted.move hs hin ?_
    by_cases hd0 : d = []
    · exact Or.inl hd0
    · exact Or.inr ((isDirAt_iff hd0).mp hd)
  · simp only [PathMap.get_move] at hq
    split at hq
    · rename_i hdq
      obtain ⟨s, rfl⟩ := hdq
      rw [List.drop_left] at hq
      exact hp.append (hw.ordinary _ hq).suffix
    · split at hq
      · cases hq
      · exact hw.ordinary q hq

/-! ## System calls at real paths -/

theorem endsInDots_ordinary {p : HostPath} (hne : p ≠ []) (hp : Ordinary p) : endsInDots p = false := by
  rw [endsInDots, cPath_eq_self hp.2, decide_eq_false_iff_not, List.getLast?_eq_some_getLast hne]
  have hc := hp.1 _ (List.getLast_mem hne)
  simp [hc.ne_dot, hc.ne_dotdot]

section calls

variable {h : Host} (hw : h.tree.WF) {p : HostPath} (hne : p ≠ []) (hp : Ordinary p) (hd : isDirAt h.tree p.dropLast = true)

include hw hne hp hd

theorem mkdir_real (mode : Nat) : h.mkdir p mode = match h.tree.get p with
    | some _ => (.error .EEXIST, h)
    | none => (.ok (), h.addEntry p .dir (h.directoryPerm p.dropLast mode)) :=
  atMissing_real hw hp hd hne

theorem createFile_real (mode : Nat) : h.createFile p mode = match h.tree.get p with
    | some _ => (.error .EEXIST, h)
    | none => (.ok (), h.addEntry p (.file []) (h.maskPerm mode)) :=
  atMissing_real hw hp hd hne

theorem symlink_real {target : Bytes} (ht : cStr target ≠ []) : h.symlink target p = match h.tree.get p with
    | some _ => (.error .EEXIST, h)
    | none => (.ok (), h.addEntry p (.symlink (cStr target)) 511) := by
  rw [Host.symlink, if_neg ht]
  exact atMissing_real hw hp hd hne

theorem ensureDirectory_real (hl : ∀ n, h.tree.get p = some n → n.isLnk = false) :
    h.ensureDirectory p = match h.tree.get p with
      | some n => (if n.isDir then .ok () else .error .ENOTDIR, h)
      | none => (.ok (), h.addEntry p .dir (h.directoryPerm p.dropLast 511)) := by
  rw [Host.ensureDirectory, resolve_real hw hp hd (fun _ => hl)]
  cases hn : h.tree.get p <;> simp only [nodeAt_of_ne hne, hn]

theorem remove_real : h.remove p = match h.tree.get p with
    | none => (.ok (), h)
    | some _ => if h.tree.names p ≠ [] then (.error .ENOTEMPTY, h) else (.ok (), h.dropEntry p) := by
  have hdots := endsInDots_ordinary hne hp
  rw [Host.remove, resolve_real hw hp hd (fun hf => by cases hf)]
  simp only [nodeAt_of_ne hne, hdots, hne]
  rfl

omit hne in
theorem listTree_real : h.listTree p =
    (.ok ((h.tree.keysUnder p).filterMap (fun r => (h.tree.get r).map (r, ·))), h) := by
  rw [Host.listTree, resolve_real hw hp hd (fun hf => by cases hf)]

end calls

/-- The inherited bit is the one bit of `01777` and itself. -/
theorem groupBit_and (t : Tree) (p : HostPath) : groupBit t p &&& setGroupId = groupBit t p := by
  unfold groupBit
  cases nodeAt t p with
  | none => rfl
  | some n => rw [Nat.and_assoc, Nat.and_self]

/-- A directory passes on the set-group-ID bit it has inherited. -/
theorem directoryPerm_and (h : Host) (parent : HostPath) (mode : Nat) :
    h.directoryPerm parent mode &&& setGroupId = groupBit h.tree parent := by
  rw [Host.directoryPerm, Nat.and_or_distrib_right, groupBit_and, Nat.and_assoc]
  have : 1023 &&& setGroupId = 0 := by decide
  rw [this, Nat.and_zero, Nat.zero_or]

theorem names_eq_nil {t : Tree} {p : HostPath} : t.names p = [] ↔ ∀ n, t.get (p ++ [n]) = none := by
  rw [List.eq_nil_iff_forall_not_mem]
  simp only [PathMap.mem_names, Bool.not_eq_true, Option.isSome_eq_false_iff, Option.isNone_iff_eq_none]

/-- What `rename` checks of its source and its destination, both in real directories and not inside one another. -/
theorem rename_real {h : Host} (hw : h.tree.WF) {src dst : HostPath} {n : Node} (hn : h.tree.get src = some n)
    (hne : dst ≠ []) (hp : Ordinary dst) (hd : isDirAt h.tree dst.dropLast = true) (hin : ¬src <+: dst) :
    h.rename src dst = match h.tree.get dst with
      | none => (.ok (), h.moveEntry src dst)
      | some m =>
        if n.isDir && !m.isDir then (.error .ENOTDIR, h)
        else if !n.isDir && m.isDir then (.error .EISDIR, h)
        else if h.tree.names dst ≠ [] then (.error .ENOTEMPTY, h)
        else (.ok (), h.moveEntry src dst) := by
  have hsrc : src ≠ [] := by
    rintro rfl
    rw [hw.get_nil] at hn
    cases hn
  have hs : Ordinary src := hw.ordinary src (by rw [hn]; rfl)
  have hneq : src ≠ dst := fun e => hin (e ▸ List.prefix_refl _)
  rw [Host.rename, atNode_some hw hn (fun hf => by cases hf), Host.at,
    resolve_real hw hp hd (fun hf => by cases hf)]
  cases hd' : h.tree.get dst <;>
    simp only [endsInDots_ordinary hsrc hs, endsInDots_ordinary hne hp, hsrc, hne, hneq, hin, Bool.or_self,
      Bool.false_eq_true, if_false, nodeAt_of_ne hne, decide_false, hd']

end TribiosVfs

import TribiosVfs.Lemmas.Walk

/-!
# What a walk looks at

`Host.looks` lists the entries a path walk reads. Two hosts that hold the same entries in a zone, and directories on the way to
it, answer a walk alike as long as it looks at nothing else (`resolve_same`); so do the reading calls, as long as the walk also
ends in the zone.
-/

namespace TribiosVfs

/-- The entries one leg of a walk looks up. -/
def advanceLooks (t : Tree) : HostPath → List Name → List HostPath
  | _, [] => []
  | dir, c :: rest =>
    if !isDirAt t dir then []
    else if c = [] ∨ c = dot then advanceLooks t dir rest
    else if c = dotdot then advanceLooks t dir.dropLast rest
    else (dir ++ [c]) :: match t.get (dir ++ [c]) with
      | none => []
      | some n => match n.contents with
        | .symlink _ => []
        | _ => advanceLooks t (dir ++ [c]) rest

/-- The entries a walk looks up. -/
def walkLooks (t : Tree) (follow : Bool) : Nat → HostPath → List Name → List HostPath
  | 0, _, _ => []
  | links + 1, dir, todo => advanceLooks t dir todo ++ match advance t follow dir todo with
    | .done _ => []
    | .jump dir' todo' => walkLooks t follow links dir' todo'

/-- The entries looked up on the way of a path. -/
def Host.looks (h : Host) (follow : Bool) (p : HostPath) : List HostPath :=
  walkLooks h.tree follow (maxLinks + 1) [] (cPath p)

/-- Two trees that hold the same entries in a zone, and directories in the places on the way to it. -/
structure SameZone (zone way : HostPath → Prop) (t t' : Tree) : Prop where
  same : ∀ q, zone q → t'.get q = t.get q
  dirs : ∀ q, way q → isDirAt t q = true ∧ isDirAt t' q = true
  start : way []
  up : ∀ q, zone q ∨ way q → zone q.dropLast ∨ way q.dropLast

section same

variable {zone way : HostPath → Prop} {t t' : Tree}

theorem SameZone.isDirAt_same (h : SameZone zone way t t') {q : HostPath} (hq : zone q ∨ way q) :
    isDirAt t' q = isDirAt t q := by
  rcases hq with hq | hq
  · by_cases hne : q = []
    · rw [hne, isDirAt_nil, isDirAt_nil]
    · rw [isDirAt, isDirAt, nodeAt_of_ne hne, nodeAt_of_ne hne, h.same q hq]
  · rw [(h.dirs q hq).1, (h.dirs q hq).2]

/-- Where a walk looks, either both trees hold the same entry, or both hold a directory. -/
theorem SameZone.get_same (h : SameZone zone way t t') {q : HostPath} (hne : q ≠ []) (hq : zone q ∨ way q) :
    t'.get q = t.get q ∨ ∃ n n', t.get q = some n ∧ t'.get q = some n' ∧ n.contents = .dir ∧ n'.contents = .dir := by
  rcases hq with hq | hq
  · exact Or.inl (h.same q hq)
  · right
    obtain ⟨hd, hd'⟩ := h.dirs q hq
    obtain ⟨n, hn, hdir⟩ := (isDirAt_iff hne).mp hd
    obtain ⟨n', hn', hdir'⟩ := (isDirAt_iff hne).mp hd'
    exact ⟨n, n', hn, hn', Node.contents_of_isDir hdir, Node.contents_of_isDir hdir'⟩

/-- One leg of a walk that looks only where the trees agree goes alike, and stays there. -/
theorem advance_same (h : SameZone zone way t t') (follow : Bool) (todo : List Name) :
    ∀ dir, (zone dir ∨ way dir) → (∀ q ∈ advanceLooks t dir todo, zone q ∨ way q) →
      advance t' follow dir todo = advance t follow dir todo ∧
        ∀ dir' todo', advance t follow dir todo = .jump dir' todo' → zone dir' ∨ way dir' := by
  induction todo with
  | nil => exact fun dir _ _ => ⟨rfl, fun _ _ hj => by simp [advance] at hj⟩
  | cons c rest ih =>
    intro dir hdir hl
    rw [advanceLooks] at hl
    rw [advance, advance, h.isDirAt_same hdir]
    by_cases hd : isDirAt t dir = true
    · rw [hd] at hl ⊢
      simp only [Bool.not_true, Bool.false_eq_true, if_false] at hl ⊢
      by_cases hskip : c = [] ∨ c = dot
      · simp only [hskip, if_true] at hl ⊢
        exact ih dir hdir hl
      · by_cases hup : c = dotdot
        · simp only [hup, if_true] at hl ⊢
          exact ih dir.dropLast (h.up dir hdir) hl
        · simp only [hskip, hup, if_false] at hl ⊢
          have hhere := hl (dir ++ [c]) List.mem_cons_self
          rcases h.get_same (by simp) hhere with hsame | ⟨n, n', hn, hn', hc, hc'⟩
          · rw [hsame]
            cases hg : t.get (dir ++ [c]) with
            | none => exact ⟨rfl, fun _ _ hj => by simp only at hj; split at hj <;> cases hj⟩
            | some n =>
              rw [hg] at hl
              cases hcont : n.contents with
              | symlink target =>
                refine ⟨by simp only [hcont], fun dir' todo' hj => ?_⟩
                simp only [hcont] at hj
                split at hj
                · cases hj
                · cases hj
                  unfold targetStart
                  split
                  · exact Or.inr h.start
                  · exact hdir
              | file data =>
                simp only [hcont] at hl ⊢
                exact ih _ hhere (fun q hq => hl q (List.mem_cons_of_mem _ hq))
              | dir =>
                simp only [hcont] at hl ⊢
                exact ih _ hhere (fun q hq => hl q (List.mem_cons_of_mem _ hq))
          · rw [hn] at hl
            rw [hn, hn']
            simp only [hc, hc'] at hl ⊢
            exact ih _ hhere (fun q hq => hl q (List.mem_cons_of_mem _ hq))
    · rw [Bool.not_eq_true] at hd
      rw [hd]
      exact ⟨rfl, fun _ _ hj => by simp at hj⟩

/-- A walk that looks only where the trees agree ends alike. -/
theorem walk_same (h : SameZone zone way t t') (follow : Bool) (links : Nat) :
    ∀ dir todo, (zone dir ∨ way dir) → (∀ q ∈ walkLooks t follow links dir todo, zone q ∨ way q) →
      walk t' follow links dir todo = walk t follow links dir todo := by
  induction links with
  | zero => exact fun _ _ _ _ => rfl
  | succ links ih =>
    intro dir todo hdir hl
    rw [walkLooks] at hl
    have hleg : ∀ q ∈ advanceLooks t dir todo, zone q ∨ way q :=
      fun q hq => hl q (List.mem_append_left _ hq)
    obtain ⟨hadv, hjump⟩ := advance_same h follow todo dir hdir hleg
    rw [walk, walk, hadv]
    cases ha : advance t follow dir todo with
    | done r => rfl
    | jump dir' todo' =>
      refine ih dir' todo' (hjump _ _ ha) (fun q hq => hl q (List.mem_append_right _ ?_))
      rw [ha]
      exact hq

end same

/-- A path leads to the same place in two hosts that agree on every entry looked up on the way. -/
theorem resolve_same {zone way : HostPath → Prop} {h h' : Host} (hs : SameZone zone way h.tree h'.tree) {follow : Bool}
    {p : HostPath} (hl : ∀ q ∈ h.looks follow p, zone q ∨ way q) : h'.resolve follow p = h.resolve follow p :=
  walk_same hs follow _ _ _ (Or.inr hs.start) hl

/-! ## Reading calls -/

section reading

variable {zone way : HostPath → Prop} {h h' : Host} (hs : SameZone zone way h.tree h'.tree) {follow : Bool} {p : HostPath}
  (hl : ∀ q ∈ h.looks follow p, zone q ∨ way q) (hz : ∀ q, h.resolve follow p = .ok q → zone q)

include hs hl hz

/-- A call at the node a path leads to is answered alike when what it makes of a node of the zone is. -/
theorem atNode_same {α : Type} {f f' : HostPath → Node → Except Errno α × Host}
    (hf : ∀ q n, zone q → (f' q n).1 = (f q n).1) : (h'.atNode follow p f').1 = (h.atNode follow p f).1 := by
  unfold Host.atNode Host.at
  rw [resolve_same hs hl]
  cases hr : h.resolve follow p with
  | error e => rfl
  | ok q =>
    have hq : nodeAt h'.tree q = nodeAt h.tree q := by
      rw [nodeAt, nodeAt, hs.same q (hz q hr)]
    simp only [hq]
    cases nodeAt h.tree q with
    | none => rfl
    | some n => exact hf q n (hz q hr)

theorem openFile_same (access : AccessMode) (hf : follow = true) : (h'.openFile p access).1 = (h.openFile p access).1 := by
  subst hf
  exact atNode_same hs hl hz (fun q n _ => by split <;> rfl)

theorem lstat_same (hf : follow = false) : (h'.lstat p).1 = (h.lstat p).1 := by
  subst hf
  exact atNode_same hs hl hz (fun _ _ _ => rfl)

theorem readSymlink_same (hf : follow = false) : (h'.readSymlink p).1 = (h.readSymlink p).1 := by
  subst hf
  exact atNode_same hs hl hz (fun q n _ => by cases n.contents <;> rfl)

end reading

/-- The children of a directory, with their nodes. -/
def listing (t : Tree) (q : HostPath) : List (Name × Node) := (t.names q).filterMap (fun c => (t.get (q ++ [c])).map (c, ·))

theorem mem_listing {t : Tree} {q : HostPath} {x : Name × Node} : x ∈ listing t q ↔ t.get (q ++ [x.1]) = some x.2 := by
  unfold listing
  rw [List.mem_filterMap]
  constructor
  · rintro ⟨c, -, hc⟩
    obtain ⟨n, hn, rfl⟩ := Option.map_eq_some_iff.mp hc
    exact hn
  · intro hx
    exact ⟨x.1, PathMap.mem_names.mpr (by rw [hx]; rfl), by rw [hx]; rfl⟩

/-- Two trees that hold the same children list them in some order. -/
theorem listing_perm {t t' : Tree} {q : HostPath} (h : ∀ c, t'.get (q ++ [c]) = t.get (q ++ [c])) :
    (listing t' q).Perm (listing t q) := by
  unfold listing
  simp only [h]
  refine List.Perm.filterMap _ ?_
  rw [List.perm_ext_iff_of_nodup (t'.nodup_names q) (t.nodup_names q)]
  intro c
  rw [PathMap.mem_names, PathMap.mem_names, h]

/-- `opendir` of the same path lists the same children in some order, or fails alike. -/
theorem openDirectory_perm {zone way : HostPath → Prop} {h h' : Host} (hs : SameZone zone way h.tree h'.tree) {p : HostPath}
    (hl : ∀ q ∈ h.looks true p, zone q ∨ way q) (hz : ∀ q, h.resolve true p = .ok q → zone q)
    (hc : ∀ q c, zone q → zone (q ++ [c])) :
    (∃ e, (h.openDirectory p).1 = .error e ∧ (h'.openDirectory p).1 = .error e) ∨
      ∃ q, (h.openDirectory p).1 = .ok (listing h.tree q) ∧ (h'.openDirectory p).1 = .ok (listing h'.tree q) ∧
        (listing h'.tree q).Perm (listing h.tree q) := by
  unfold Host.openDirectory Host.atNode Host.at
  rw [resolve_same hs hl]
  cases hr : h.resolve true p with
  | error e => exact Or.inl ⟨e, rfl, rfl⟩
  | ok q =>
    have hq : nodeAt h'.tree q = nodeAt h.tree q := by
      rw [nodeAt, nodeAt, hs.same q (hz q hr)]
    simp only [hq]
    cases hn : nodeAt h.tree q with
    | none => exact Or.inl ⟨.ENOENT, rfl, rfl⟩
    | some n =>
      cases hd : n.isDir with
      | true => exact Or.inr ⟨q, by simp [hd, listing], by simp [hd, listing], listing_perm (fun c => hs.same _ (hc q c (hz q hr)))⟩
      | false => exact Or.inl ⟨.ENOTDIR, by simp [hd], by simp [hd]⟩

end TribiosVfs

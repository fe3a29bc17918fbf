import TribiosVfs.Lemmas.Frames
import TribiosVfs.Lemmas.Runs
import TribiosVfs.Recovery

/-!
# Runs over the host at real paths

What the helpers that walk over several entries come to when nothing hinders a call: a step of `create_directories` paves the way to
a path, `remove_all` leaves nothing at or beneath a path, and the calls at an entry that is there succeed.
-/

namespace TribiosVfs

/-! ## Directories on the way -/

theorem isDirAt_addEntry {h : Host} {p q : HostPath} (hne : p ≠ []) (c : Contents) (perm : Nat) (hn : h.tree.get p = none)
    (hq : isDirAt h.tree q = true) : isDirAt (h.addEntry p c perm).tree q = true := by
  by_cases h0 : q = []
  · rw [h0, isDirAt_nil]
  · obtain ⟨n, hget, hdir⟩ := (isDirAt_iff h0).mp hq
    have hqp : q ≠ p := by
      rintro rfl
      rw [hn] at hget
      cases hget
    rw [isDirAt_iff h0, addEntry_get h hne, if_neg hqp, hget]
    by_cases hd : q = p.dropLast
    · exact ⟨n.touched h.now, by rw [if_pos hd]; rfl, hdir⟩
    · exact ⟨n, by rw [if_neg hd], hdir⟩

/-- Every entry on the way to a path is a directory. -/
structure Site (h : Host) (p : HostPath) : Prop where
  ordinary : Ordinary p
  dirs : ∀ a, a <+: p → ∀ n, h.tree.get a = some n → n.isDir = true

theorem Site.initial {h : Host} {p q : HostPath} (hs : Site h q) (hp : p <+: q) : Site h p :=
  ⟨hs.ordinary.of_initial hp, fun a ha => hs.dirs a (ha.trans hp)⟩

/-- The entries a call has changed are directories, on the way to a path. -/
structure Paved (p : HostPath) (h h' : Host) : Prop where
  wf : h'.tree.WF
  dir : isDirAt h'.tree p = true
  dirs : ∀ q, isDirAt h.tree q = true → isDirAt h'.tree q = true
  off : ∀ q, ¬q <+: p → h'.tree.get q = h.tree.get q
  site : ∀ q, Site h q → Site h' q

theorem ensureDirectory_paved {h : Host} (hw : h.tree.WF) {p : HostPath} (hs : Site h p) (hd : isDirAt h.tree p.dropLast = true) :
    ∃ h', h.ensureDirectory p = (.ok (), h') ∧ Paved p h h' := by
  by_cases h0 : p = []
  · subst h0
    refine ⟨h, ?_, hw, isDirAt_nil _, fun _ => id, fun _ _ => rfl, fun _ => id⟩
    rw [Host.ensureDirectory, resolve_real hw Ordinary.nil (isDirAt_nil _) (fun _ n hn => by rw [hw.get_nil] at hn; cases hn)]
    rfl
  · rw [ensureDirectory_real hw h0 hs.ordinary hd (fun n hn => Node.isLnk_of_isDir (hs.dirs p (List.prefix_refl _) n hn))]
    cases hn : h.tree.get p with
    | some n =>
      have hdir := hs.dirs p (List.prefix_refl _) n hn
      refine ⟨h, by simp [hdir], hw, (isDirAt_iff h0).mpr ⟨n, hn, hdir⟩, fun _ => id, fun _ _ => rfl, fun _ => id⟩
    | none =>
      refine ⟨_, rfl, addEntry_wf hw h0 hs.ordinary hd hn _ _, ?_, fun q => isDirAt_addEntry h0 _ _ hn, ?_, ?_⟩
      · rw [isDirAt_iff h0, addEntry_get h h0, if_pos rfl]
        exact ⟨_, rfl, rfl⟩
      · intro q hq
        have hqp : q ≠ p := fun e => hq (e ▸ List.prefix_refl _)
        have hqd : q ≠ p.dropLast := fun e => hq (e ▸ List.dropLast_prefix p)
        rw [addEntry_get h h0, if_neg hqp, if_neg hqd]
      · refine fun q hq => ⟨hq.ordinary, fun a ha n hn' => ?_⟩
        rw [addEntry_get h h0] at hn'
        split at hn'
        · cases hn'
          rfl
        · split at hn'
          · obtain ⟨m, hm, rfl⟩ := Option.map_eq_some_iff.mp hn'
            exact hq.dirs a ha m hm
          · exact hq.dirs a ha n hn'

/-! ## Removal of a tree -/

/-- What `remove` leaves is what was there. -/
theorem remove_shrinks (h : Host) (p : HostPath) {a : HostPath} {n : Node} (hn : (h.remove p).2.tree.get a = some n) :
    ∃ m, h.tree.get a = some m ∧ n.seen = m.seen := by
  unfold Host.remove at hn
  split at hn
  · exact ⟨n, hn, rfl⟩
  · exact ⟨n, hn, rfl⟩
  · rename_i q _
    split at hn
    · exact ⟨n, hn, rfl⟩
    · split at hn
      · exact ⟨n, hn, rfl⟩
      · rename_i hq
        split at hn
        · exact ⟨n, hn, rfl⟩
        · have hne : q ≠ [] := by
            intro h0
            simp [h0] at hq
          change (h.dropEntry q).tree.get a = some n at hn
          rw [dropEntry_get h hne] at hn
          split at hn
          · cases hn
          · split at hn
            · obtain ⟨m, hm, rfl⟩ := Option.map_eq_some_iff.mp hn
              exact ⟨m, hm, rfl⟩
            · exact ⟨n, hn, rfl⟩

/-- An entry with none beneath it is removed. -/
theorem remove_leaf {h : Host} (hw : h.tree.WF) {p : HostPath} {n : Node} (hn : h.tree.get p = some n)
    (hl : ∀ c, h.tree.get (p ++ [c]) = none) : h.remove p = (.ok (), h.dropEntry p) := by
  have hs : (h.tree.get p).isSome := by rw [hn]; rfl
  have hne : p ≠ [] := by
    rintro rfl
    rw [hw.get_nil] at hn
    cases hn
  rw [remove_real hw hne (hw.ordinary p hs) (hw.isDirAt_parent hs), hn]
  simp [names_eq_nil.mpr hl]

/-- A relation that holds between a host and itself, and across the removals of entries at and beneath a path, one at a time. -/
structure Drops (p : HostPath) (S : Host → Host → Prop) : Prop where
  refl : ∀ h, h.tree.WF → S h h
  step : ∀ h h' q, h.tree.WF → p <+: q → (h.tree.get q).isSome → (∀ c, h.tree.get (q ++ [c]) = none) → S (h.dropEntry q) h' → S h h'

/-- Nothing is at a path, or a directory with nothing in it. -/
def Emptied (p : HostPath) (t : Tree) : Prop := t.get p = none ∨ (isDirAt t p = true ∧ t.names p = [])

/-- What is left to remove at and beneath a path: an entry stands after those beneath it. -/
structure Left (p : HostPath) (entries : List (HostPath × Node)) (h : Host) : Prop where
  wf : h.tree.WF
  sorted : entries.Pairwise (fun a b => b.1.length ≤ a.1.length ∧ a.1 ≠ b.1)
  there : ∀ e ∈ entries, p <+: e.1 ∧ (h.tree.get e.1).isSome
  all : ∀ q, p <+: q → (h.tree.get q).isSome → ∃ e ∈ entries, e.1 = q

section left

variable {p : HostPath} {e : HostPath × Node} {entries : List (HostPath × Node)} {h : Host}

theorem Left.gone (hl : Left p [] h) : h.tree.get p = none := by
  by_contra hp
  obtain ⟨e, he, -⟩ := hl.all p (List.prefix_refl p) (Option.isSome_iff_ne_none.mpr hp)
  cases he

/-- An entry beneath the first one is longer, so it would stand before it. -/
theorem Left.leaf (hl : Left p (e :: entries) h) : ∀ c, h.tree.get (e.1 ++ [c]) = none := by
  intro c
  by_contra hc
  obtain ⟨e', he', heq⟩ := hl.all (e.1 ++ [c]) ((hl.there e List.mem_cons_self).1.trans (List.prefix_append _ _))
    (Option.isSome_iff_ne_none.mpr hc)
  have hlen : e'.1.length = e.1.length + 1 := by rw [heq]; simp
  rcases List.mem_cons.mp he' with rfl | hmem
  · omega
  · have := ((List.pairwise_cons.mp hl.sorted).1 e' hmem).1
    omega

theorem Left.removes (hl : Left p (e :: entries) h) : h.remove e.1 = (.ok (), h.dropEntry e.1) := by
  obtain ⟨n, hn⟩ := Option.isSome_iff_exists.mp (hl.there e List.mem_cons_self).2
  exact remove_leaf hl.wf hn hl.leaf

theorem Left.rest (hne : p ≠ []) (hl : Left p (e :: entries) h) : Left p entries (h.dropEntry e.1) := by
  obtain ⟨hfirst, hrest⟩ := List.pairwise_cons.mp hl.sorted
  have he0 : e.1 ≠ [] := by
    intro h0
    have hpe := (hl.there e List.mem_cons_self).1
    rw [h0] at hpe
    exact hne (List.prefix_nil.mp hpe)
  have hget : ∀ q, q ≠ e.1 → ((h.dropEntry e.1).tree.get q).isSome = (h.tree.get q).isSome := by
    intro q hq
    rw [dropEntry_get h he0, if_neg hq]
    split
    · simp
    · rfl
  refine ⟨dropEntry_wf hl.wf hl.leaf, hrest, fun e' he' => ?_, fun q hpq hq => ?_⟩
  · obtain ⟨hp', hs'⟩ := hl.there e' (List.mem_cons_of_mem _ he')
    exact ⟨hp', by rw [hget e'.1 (Ne.symm (hfirst e' he').2)]; exact hs'⟩
  · have hqe : q ≠ e.1 := by
      rintro rfl
      rw [dropEntry_get h he0, if_pos rfl] at hq
      cases hq
    rw [hget q hqe] at hq
    obtain ⟨e', he', heq⟩ := hl.all q hpq hq
    rcases List.mem_cons.mp he' with rfl | hmem
    · exact absurd heq.symm hqe
    · exact ⟨e', hmem, heq⟩

/-- What a listing of a tree names is what there is to remove. -/
theorem listTree_left (hw : h.tree.WF) (hp : Ordinary p) (hd : isDirAt h.tree p.dropLast = true) :
    ∃ entries, h.listTree p = (.ok entries, h) ∧ Left p entries h := by
  have hmem : ∀ e, e ∈ (h.tree.keysUnder p).filterMap (fun r => (h.tree.get r).map (r, ·)) ↔
      p <+: e.1 ∧ h.tree.get e.1 = some e.2 := by
    intro e
    rw [List.mem_filterMap]
    constructor
    · rintro ⟨r, hr, he⟩
      obtain ⟨n, hn, rfl⟩ := Option.map_eq_some_iff.mp he
      exact ⟨(PathMap.mem_keysUnder.mp hr).1, hn⟩
    · rintro ⟨hpe, hn⟩
      refine ⟨e.1, PathMap.mem_keysUnder.mpr ⟨hpe, by rw [hn]; rfl⟩, ?_⟩
      rw [hn]
      rfl
  refine ⟨_, listTree_real hw hp hd, hw, ?_, fun e he => ?_, fun q hpq hq => ?_⟩
  · refine List.Pairwise.filterMap _ (S := fun a b : HostPath × Node => b.1.length ≤ a.1.length ∧ a.1 ≠ b.1) ?_
      ((PathMap.sorted_keysUnder h.tree p).and (PathMap.nodup_keysUnder h.tree p))
    intro a a' haa b hb b' hb'
    obtain ⟨n, -, rfl⟩ := Option.map_eq_some_iff.mp hb
    obtain ⟨n', -, rfl⟩ := Option.map_eq_some_iff.mp hb'
    exact haa
  · obtain ⟨hpe, hn⟩ := (hmem e).mp he
    exact ⟨hpe, by rw [hn]; rfl⟩
  · obtain ⟨n, hn⟩ := Option.isSome_iff_exists.mp hq
    exact ⟨(q, n), (hmem (q, n)).mpr ⟨hpq, hn⟩, rfl⟩

end left

/-- The removal of what is left, one entry at a time. -/
theorem run_removeEach {p : HostPath} {S : Host → Host → Prop} (hS : Drops p S) (hne : p ≠ []) (entries : List (HostPath × Node)) :
    ∀ {w : World}, Left p entries w.host →
    ∃ h', (Fallible.forEach (fun entry => Io.call (.remove entry.1)) entries).run exec w = (.ok (), { w with host := h' }) ∧
      S w.host h' ∧ h'.tree.get p = none := by
  induction entries with
  | nil => exact fun {w} hl => ⟨w.host, rfl, hS.refl _ hl.wf, hl.gone⟩
  | cons e entries ih =>
    intro w hl
    obtain ⟨hpe, hsome⟩ := hl.there e List.mem_cons_self
    obtain ⟨h', hrun, hf, hp⟩ := ih (w := { w with host := w.host.dropEntry e.1 }) (hl.rest hne)
    refine ⟨h', ?_, hS.step _ _ _ hl.wf hpe hsome hl.leaf hf, hp⟩
    have hcall : (Io.call (.remove e.1)).run exec w = (.ok (), { w with host := w.host.dropEntry e.1 }) := by
      change ((w.host.remove e.1).1, { w with host := (w.host.remove e.1).2 }) = _
      rw [hl.removes]
    rw [Runs.run_forEach_cons, hcall]
    exact hrun

/-- `remove_all` of a path in a real directory, and what holds across it. -/
theorem run_removeAll_across {w : World} (hw : w.host.tree.WF) {p : HostPath} {S : Host → Host → Prop} (hS : Drops p S)
    (hne : p ≠ []) (hp : Ordinary p) (hd : isDirAt w.host.tree p.dropLast = true) :
    ∃ h', (removeAll p).run exec w = (.ok (), { w with host := h' }) ∧ S w.host h' ∧ h'.tree.get p = none := by
  obtain ⟨entries, hlisted, hl⟩ := listTree_left hw hp hd
  have hlist : (Io.call (.listTree p)).run exec w = (.ok entries, w) := by
    rw [Runs.run_call w _ rfl]
    change ((w.host.listTree p).1, w) = _
    rw [hlisted]
  rw [removeAll, Runs.run_bind, hlist]
  exact run_removeEach hS hne entries hl

theorem drops_frame {p : HostPath} (hne : p ≠ []) : Drops p (Frame (p <+: ·)) where
  refl _ hw := Frame.refl hw
  step h h' q hw hpq _ hl hf := by
    have hq : q ≠ [] := by
      rintro rfl
      exact hne (List.prefix_nil.mp hpq)
    exact ((frame_dropEntry hw hq hl).mono (fun r hr => hr ▸ hpq)).trans hf

/-- `remove_all` of a path in a real directory. -/
theorem run_removeAll {w : World} (hw : w.host.tree.WF) {p : HostPath} (hne : p ≠ []) (hp : Ordinary p)
    (hd : isDirAt w.host.tree p.dropLast = true) :
    ∃ h', (removeAll p).run exec w = (.ok (), { w with host := h' }) ∧ Frame (p <+: ·) w.host h' ∧ h'.tree.get p = none :=
  run_removeAll_across hw (drops_frame hne) hne hp hd

/-! ## Calls at an entry that is there -/

theorem nodeAt_dir {t : Tree} {p : HostPath} (hd : isDirAt t p = true) : ∃ n, nodeAt t p = some n ∧ n.isDir = true := by
  unfold isDirAt at hd
  cases hn : nodeAt t p with
  | none => simp [hn] at hd
  | some n => exact ⟨n, rfl, by simpa [hn] using hd⟩

section entries

variable {h : Host} (hw : h.tree.WF) {p : HostPath}

include hw

/-- A directory leads to itself. -/
theorem resolve_dir {follow : Bool} (hp : Ordinary p) (hd : isDirAt h.tree p = true) : h.resolve follow p = .ok p := by
  refine resolve_real hw hp (hw.isDirAt_initial hd (List.dropLast_prefix p)) (fun _ n hn => ?_)
  have hne : p ≠ [] := by
    rintro rfl
    rw [hw.get_nil] at hn
    cases hn
  obtain ⟨m, hm, hdir⟩ := (isDirAt_iff hne).mp hd
  rw [hm, Option.some.injEq] at hn
  exact hn ▸ Node.isLnk_of_isDir hdir

theorem fsyncDirectory_dir (hp : Ordinary p) (hd : isDirAt h.tree p = true) : h.fsyncDirectory p = (.ok (), h) := by
  obtain ⟨n, hn, hdir⟩ := nodeAt_dir hd
  rw [Host.fsyncDirectory, Host.atNode, Host.at, resolve_dir hw hp hd]
  simp only [hn, hdir, if_true]

theorem ensureDirectory_dir (hp : Ordinary p) (hd : isDirAt h.tree p = true) : h.ensureDirectory p = (.ok (), h) := by
  obtain ⟨n, hn, hdir⟩ := nodeAt_dir hd
  rw [Host.ensureDirectory, resolve_dir hw hp hd]
  simp only [hn, hdir, if_true]

/-- A write of a whole file where none is, or over one. -/
theorem replaceFile_real (hne : p ≠ []) (hp : Ordinary p) (hd : isDirAt h.tree p.dropLast = true)
    (hl : ∀ n, h.tree.get p = some n → n.isReg = true) (data : Bytes) :
    ∃ h', h.replaceFile p data = (.ok (), h') ∧ Frame (· = p) h h' ∧ ∃ n, h'.tree.get p = some n ∧ n.contents = .file data := by
  have hnl : ∀ n, h.tree.get p = some n → n.isLnk = false := by
    intro n hn
    have := hl n hn
    unfold Node.isReg at this
    unfold Node.isLnk
    cases hc : n.contents <;> simp [hc] at this ⊢
  rw [Host.replaceFile, Host.at, resolve_real hw hp hd (fun _ => hnl)]
  simp only [nodeAt_of_ne hne]
  cases hn : h.tree.get p with
  | none =>
    refine ⟨_, rfl, frame_addEntry hw hp hne hd hn _ _, ⟨.file data, ⟨h.nextIno, h.maskPerm 420, h.now, h.now, h.now⟩⟩, ?_, rfl⟩
    rw [addEntry_get h hne, if_pos rfl]
  | some n =>
    have hreg := hl n hn
    cases hc : n.contents with
    | file old =>
      simp only [hc]
      refine ⟨_, rfl, frame_alter_at hw hn ?_, ({ n with contents := .file data } : Node).touched h.now, ?_, rfl⟩
      · rw [Node.touched_isDir, Node.isDir, Node.isDir, hc]
      · rw [alter_get, if_pos rfl, hn]
        rfl
    | dir => simp [Node.isReg, hc] at hreg
    | symlink target => simp [Node.isReg, hc] at hreg

end entries

/-- A file that `stat` finds can be flushed. -/
theorem fsyncFile_of_stat {h : Host} {p : HostPath} {n : Node} (hs : (h.stat p).1 = .ok n) : h.fsyncFile p = (.ok (), h) := by
  unfold Host.stat Host.atNode Host.at at hs
  unfold Host.fsyncFile Host.atNode Host.at
  cases hr : h.resolve true p with
  | error x => simp [hr] at hs
  | ok q =>
    simp only [hr] at hs ⊢
    cases hn : nodeAt h.tree q with
    | none => simp [hn] at hs
    | some m => rfl

/-! ## The directory an entry is found in -/

/-- A leg of a walk of a path first goes to the directory in which its last name is looked up. -/
theorem advance_concat {t : Tree} {follow : Bool} {c : Name} (todo : List Name) : ∀ (dir : HostPath),
    (∃ d, advance t true dir todo = .done (.ok d) ∧ isDirAt t d = true ∧
        advance t follow dir (todo ++ [c]) = advance t follow d [c]) ∨
      ((∃ r, advance t true dir todo = .done r ∧ ∀ d, r = .ok d → isDirAt t d = false) ∧
        ∃ x, advance t follow dir (todo ++ [c]) = .done (.error x)) ∨
      (∃ d rest, advance t true dir todo = .jump d rest ∧ advance t follow dir (todo ++ [c]) = .jump d (rest ++ [c])) := by
  induction todo with
  | nil =>
    intro dir
    by_cases hd : isDirAt t dir = true
    · exact Or.inl ⟨dir, by rw [advance], hd, rfl⟩
    · rw [Bool.not_eq_true] at hd
      refine Or.inr (Or.inl ⟨⟨.ok dir, by rw [advance], fun d he => ?_⟩, .ENOTDIR, ?_⟩)
      · cases he
        exact hd
      · rw [List.nil_append, advance, hd]
        rfl
  | cons n todo ih =>
    intro dir
    rw [List.cons_append, advance, advance]
    by_cases hd : isDirAt t dir = true
    · simp only [hd, Bool.not_true, Bool.false_eq_true, if_false]
      by_cases h1 : n = [] ∨ n = dot
      · simp only [h1, if_true]
        exact ih dir
      · simp only [h1, if_false]
        by_cases h2 : n = dotdot
        · simp only [h2, if_true]
          exact ih dir.dropLast
        · simp only [h2, if_false]
          cases hg : t.get (dir ++ [n]) with
          | none =>
            refine Or.inr (Or.inl ⟨?_, .ENOENT, by simp⟩)
            by_cases htodo : todo = []
            · refine ⟨.ok (dir ++ [n]), by simp [htodo], fun d he => ?_⟩
              cases he
              rw [isDirAt_eq_false (by simp), hg]
              simp
            · exact ⟨.error .ENOENT, by simp [htodo], fun d he => by cases he⟩
          | some m =>
            cases hc : m.contents with
            | file data => simpa only [hc] using ih (dir ++ [n])
            | dir => simpa only [hc] using ih (dir ++ [n])
            | symlink target =>
              refine Or.inr (Or.inr ⟨targetStart dir target, splitSlash target ++ todo, ?_, ?_⟩)
              · simp [hc]
              · simp [hc]
    · refine Or.inr (Or.inl ⟨⟨.error .ENOTDIR, by simp [hd], fun d he => by cases he⟩, .ENOTDIR, by simp [hd]⟩)

/-- A walk of a path has first walked to the directory in which it looks its last name up. -/
theorem walk_concat {t : Tree} {follow : Bool} {c : Name} : ∀ (links : Nat) (dir : HostPath) (todo : List Name) {q : HostPath},
    walk t follow links dir (todo ++ [c]) = .ok q →
      ∃ d, walk t true links dir todo = .ok d ∧ isDirAt t d = true
  | 0, _, _, q, h => by cases h
  | links + 1, dir, todo, q, h => by
    rw [walk] at h ⊢
    rcases @advance_concat _ follow c todo dir with ⟨d, hd, hdir, -⟩ | ⟨-, x, hx⟩ | ⟨d, rest, hd, hc⟩
    · exact ⟨d, by rw [hd], hdir⟩
    · rw [hx] at h
      cases h
    · rw [hc] at h
      rw [hd]
      exact walk_concat links d rest h

/-- The directory of an entry that `stat` finds can be flushed. -/
theorem fsyncDirectory_of_stat {h : Host} {p : HostPath} {n : Node} (hne : p ≠ []) (hp : NulFree p)
    (hs : (h.stat p).1 = .ok n) : h.fsyncDirectory p.dropLast = (.ok (), h) := by
  have hlast := List.dropLast_append_getLast hne
  have hq : ∃ q, h.resolve true p = .ok q := by
    unfold Host.stat Host.atNode Host.at at hs
    cases hr : h.resolve true p with
    | error x => simp [hr] at hs
    | ok q => exact ⟨q, rfl⟩
  obtain ⟨q, hq⟩ := hq
  rw [Host.resolve, cPath_eq_self hp, ← hlast] at hq
  obtain ⟨d, hd, hdir⟩ := walk_concat _ _ _ hq
  have hinit : NulFree p.dropLast := fun m hm => hp m (List.mem_of_mem_dropLast hm)
  rw [Host.fsyncDirectory, Host.atNode, Host.at, Host.resolve, cPath_eq_self hinit, hd]
  dsimp only
  unfold isDirAt at hdir
  cases hn : nodeAt h.tree d with
  | none => simp [hn] at hdir
  | some m => simp_all

end TribiosVfs

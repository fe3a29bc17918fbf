import TribiosVfs.Lemmas.Capture

/-!
# A capture only adds

No step of a capture removes an entry or turns a symlink into something else, wherever its paths lead: what an earlier attempt
left is still there at the end (`walkProject_extends`).
-/

namespace TribiosVfs

/-- A host whose tree is well formed, and whose symlinks hold C strings. -/
structure Host.Sound (h : Host) : Prop where
  wf : h.tree.WF
  target : ∀ q n t, h.tree.get q = some n → n.contents = .symlink t → (0 : UInt8) ∉ t

/-- Every entry is still there, a directory if it was one, and a symlink if it was one. -/
structure Host.Extends (h h' : Host) : Prop where
  sound : h'.Sound
  keeps : ∀ q n, h.tree.get q = some n → ∃ n', h'.tree.get q = some n' ∧ n'.isDir = n.isDir ∧
    ∀ t, n.contents = .symlink t → n'.contents = .symlink t

theorem Host.Sound.extends {h : Host} (hs : h.Sound) : h.Extends h := ⟨hs, fun _ n hn => ⟨n, hn, rfl, fun _ => id⟩⟩

theorem Host.Extends.trans {h₁ h₂ h₃ : Host} (h : h₁.Extends h₂) (h' : h₂.Extends h₃) : h₁.Extends h₃ where
  sound := h'.sound
  keeps q n hn := by
    obtain ⟨n₂, hn₂, hd₂, hl₂⟩ := h.keeps q n hn
    obtain ⟨n₃, hn₃, hd₃, hl₃⟩ := h'.keeps q n₂ hn₂
    exact ⟨n₃, hn₃, hd₃.trans hd₂, fun t ht => hl₃ t (hl₂ t ht)⟩

/-! ## Where a path leads -/

/-- No segment holds a slash or a NUL byte. -/
def Segments (p : List Name) : Prop := ∀ n ∈ p, slash ∉ n ∧ (0 : UInt8) ∉ n

/-- A path in a directory, as a walk leaves it. -/
def Lands (t : Tree) (p : HostPath) : Prop := Ordinary p ∧ isDirAt t p.dropLast = true

theorem splitSlash_segments {b : Bytes} (h : (0 : UInt8) ∉ b) : Segments (splitSlash b) := by
  induction b with
  | nil =>
    intro n hn
    rw [splitSlash, List.mem_singleton] at hn
    simp [hn]
  | cons c b ih =>
    rw [List.mem_cons, not_or] at h
    intro n hn
    rw [splitSlash] at hn
    split at hn
    · rcases List.mem_cons.mp hn with rfl | hn
      · exact ⟨List.not_mem_nil, List.not_mem_nil⟩
      · exact ih h.2 n hn
    · rename_i hc
      split at hn
      · rename_i s rest he
        rw [he] at ih
        rcases List.mem_cons.mp hn with rfl | hn
        · have hs := ih h.2 s List.mem_cons_self
          simp only [List.mem_cons, not_or]
          exact ⟨⟨Ne.symm hc, hs.1⟩, h.1, hs.2⟩
        · exact ih h.2 n (List.mem_cons_of_mem _ hn)
      · exact absurd (by assumption) (splitSlash_ne_nil b)

section lands

variable {h : Host} (hs : h.Sound)

include hs

/-- A walk goes on from a place in a directory, and ends in one. -/
theorem advance_lands (follow : Bool) {todo : List Name} : ∀ {dir : HostPath}, Segments todo → Lands h.tree dir →
    (∀ q, advance h.tree follow dir todo = .done (.ok q) → Lands h.tree q) ∧
      ∀ d rest, advance h.tree follow dir todo = .jump d rest → Lands h.tree d ∧ Segments rest := by
  induction todo with
  | nil =>
    intro dir _ hl
    refine ⟨fun q hq => ?_, fun d rest hq => ?_⟩
    · cases hq
      exact hl
    · cases hq
  | cons c rest ih =>
    intro dir hseg hl
    have hrest : Segments rest := fun n hn => hseg n (List.mem_cons_of_mem _ hn)
    rw [advance]
    by_cases hd : isDirAt h.tree dir = true
    swap
    · rw [if_pos (by simpa using hd)]
      exact ⟨fun q hq => (by cases hq), fun d rest hq => (by cases hq)⟩
    rw [if_neg (by simpa using hd)]
    by_cases hc : c = [] ∨ c = dot
    · rw [if_pos hc]
      exact ih hrest hl
    · rw [if_neg hc]
      rw [not_or] at hc
      by_cases hdd : c = dotdot
      · rw [if_pos hdd]
        exact ih hrest ⟨hl.1.of_initial (List.dropLast_prefix _), hs.wf.isDirAt_initial hl.2 (List.dropLast_prefix _)⟩
      · rw [if_neg hdd]
        have hc' : Ordinary [c] := by
          refine ⟨fun n hn => ?_, fun n hn => ?_⟩
          · rw [List.mem_singleton.mp hn]
            exact ⟨hc.1, hc.2, hdd, (hseg c List.mem_cons_self).1⟩
          · rw [List.mem_singleton.mp hn]
            exact (hseg c List.mem_cons_self).2
        have hchild : Lands h.tree (dir ++ [c]) := ⟨hl.1.append hc', by rw [List.dropLast_concat]; exact hd⟩
        cases hn : h.tree.get (dir ++ [c]) with
        | none =>
          dsimp only
          split
          · refine ⟨fun q hq => ?_, fun d rest hq => (by cases hq)⟩
            cases hq
            exact hchild
          · exact ⟨fun q hq => (by cases hq), fun d rest hq => (by cases hq)⟩
        | some m =>
          dsimp only
          cases ht : m.contents with
          | symlink target =>
            dsimp only
            split
            · refine ⟨fun q hq => ?_, fun d rest hq => (by cases hq)⟩
              cases hq
              exact hchild
            · refine ⟨fun q hq => (by cases hq), fun d rest' hq => ?_⟩
              cases hq
              refine ⟨?_, fun k hk => ?_⟩
              · unfold targetStart
                split
                · exact ⟨Ordinary.nil, isDirAt_nil _⟩
                · exact hl
              · rcases List.mem_append.mp hk with hk | hk
                · exact splitSlash_segments (hs.target _ m target hn ht) k hk
                · exact hrest k hk
          | file data => exact ih hrest hchild
          | dir => exact ih hrest hchild

theorem walk_lands {follow : Bool} (links : Nat) : ∀ {dir : HostPath} {todo : List Name} {q : HostPath}, Segments todo →
    Lands h.tree dir → walk h.tree follow links dir todo = .ok q → Lands h.tree q := by
  induction links with
  | zero =>
    intro dir todo q _ _ hq
    cases hq
  | succ links ih =>
    intro dir todo q hseg hl hq
    obtain ⟨hdone, hjump⟩ := advance_lands hs follow hseg hl
    rw [walk] at hq
    cases ha : advance h.tree follow dir todo with
    | done r =>
      rw [ha] at hq
      subst hq
      exact hdone q ha
    | jump d rest =>
      rw [ha] at hq
      obtain ⟨hd, hr⟩ := hjump d rest ha
      exact ih hr hd hq

theorem resolve_lands {follow : Bool} {p q : HostPath} (hp : Ordinary p) (hq : h.resolve follow p = .ok q) : Lands h.tree q := by
  refine walk_lands hs _ (fun n hn => ?_) ⟨Ordinary.nil, isDirAt_nil _⟩ hq
  rw [cPath_eq_self hp.2] at hn
  exact ⟨(hp.1 n hn).no_slash, hp.2 n hn⟩

end lands

/-! ## One entry -/

section entries

variable {h : Host} (hs : h.Sound) {p : HostPath}

include hs

theorem addEntry_extends (hl : Lands h.tree p) (hn : nodeAt h.tree p = none) (c : Contents) (perm : Nat)
    (hc : ∀ t, c = .symlink t → (0 : UInt8) ∉ t) : h.Extends (h.addEntry p c perm) := by
  have hne : p ≠ [] := by
    rintro rfl
    simp [nodeAt] at hn
  rw [nodeAt_of_ne hne] at hn
  refine ⟨⟨addEntry_wf hs.wf hne hl.1 hl.2 hn c perm, fun q n t hq ht => ?_⟩, fun q n hq => ?_⟩
  · rw [addEntry_get h hne] at hq
    split at hq
    · cases hq
      exact hc t ht
    · split at hq
      · obtain ⟨m, hm, rfl⟩ := Option.map_eq_some_iff.mp hq
        exact hs.target q m t hm ht
      · exact hs.target q n t hq ht
  · rw [addEntry_get h hne]
    have hqp : q ≠ p := by
      rintro rfl
      rw [hn] at hq
      cases hq
    rw [if_neg hqp, hq]
    split
    · exact ⟨n.touched h.now, rfl, rfl, fun _ => id⟩
    · exact ⟨n, rfl, rfl, fun _ => id⟩

/-- A change in place that keeps directories and symlinks. -/
theorem alter_extends {f : Node → Node} (hf : ∀ n, h.tree.get p = some n → (f n).isDir = n.isDir ∧
    ((f n).contents = n.contents ∨ (∀ t, n.contents ≠ .symlink t) ∧ ∀ t, (f n).contents ≠ .symlink t)) :
    h.Extends (h.alter p f) := by
  refine ⟨⟨?_, fun q n t hq ht => ?_⟩, fun q n hq => ?_⟩
  · cases hn : h.tree.get p with
    | some n => exact alter_wf_at hs.wf hn (hf n hn).1
    | none =>
      refine ⟨hs.wf.rooted.congr (fun q => ?_), fun q hq => hs.wf.ordinary q ?_⟩
      · rw [alter_get]
        split
        · rename_i he
          rw [he, hn]
          rfl
        · rfl
      · rw [alter_get] at hq
        split at hq <;> simpa using hq
  · rw [alter_get] at hq
    split at hq
    · rename_i he
      obtain ⟨m, hm, rfl⟩ := Option.map_eq_some_iff.mp hq
      rcases (hf m (he ▸ hm)).2 with hc | ⟨-, hc⟩
      · exact hs.target q m t hm (hc ▸ ht)
      · exact absurd ht (hc t)
    · exact hs.target q n t hq ht
  · rw [alter_get, hq]
    split
    · rename_i he
      obtain ⟨hd, hc⟩ := hf n (he ▸ hq)
      refine ⟨f n, rfl, hd, fun t ht => ?_⟩
      rcases hc with hc | ⟨hc, -⟩
      · exact hc.trans ht
      · exact absurd ht (hc t)
    · exact ⟨n, rfl, rfl, fun _ => id⟩

end entries

/-! ## The calls of a capture -/

section calls

variable {h : Host} (hs : h.Sound) {p : HostPath} (hp : Ordinary p)

include hs hp

theorem lookAt_extends {follow : Bool} {f : HostPath → Except Errno Unit × Host}
    (hf : ∀ q, Lands h.tree q → h.Extends (f q).2) : h.Extends (h.lookAt follow p f).2 := by
  rw [Host.lookAt, Host.at]
  cases hr : h.resolve follow p with
  | error e => exact hs.extends
  | ok q =>
    dsimp only
    split
    · exact hf q (resolve_lands hs hp hr)
    · exact hs.extends

theorem makeDirectory_extends : h.Extends (h.makeDirectory p).2 := by
  refine lookAt_extends hs hp (fun q hq => ?_)
  cases hn : nodeAt h.tree q with
  | some n => exact hs.extends
  | none =>
    dsimp only
    split
    · exact addEntry_extends hs hq hn _ _ (fun t ht => by cases ht)
    · exact hs.extends

theorem makeSymlink_extends (target : Bytes) : h.Extends (h.makeSymlink target p).2 := by
  rw [Host.makeSymlink]
  split
  · exact hs.extends
  · refine lookAt_extends hs hp (fun q hq => ?_)
    cases hn : nodeAt h.tree q with
    | some n => exact hs.extends
    | none =>
      dsimp only
      split
      · refine addEntry_extends hs hq hn _ _ (fun t ht => ?_)
        cases ht
        intro h0
        have := List.mem_takeWhile_imp h0
        simp at this
      · exact hs.extends

theorem writeWhole_extends (data : Bytes) (perm : Nat) : h.Extends (h.writeWhole p data perm).2 := by
  refine lookAt_extends hs hp (fun q hq => ?_)
  cases hn : nodeAt h.tree q with
  | some n =>
    dsimp only
    cases hc : n.contents with
    | file old =>
      dsimp only
      split
      · refine alter_extends hs (fun m hm => ?_)
        have hmn : m = n := by
          by_cases h0 : q = []
          · rw [h0, hs.wf.get_nil] at hm
            cases hm
          · rw [nodeAt_of_ne h0, hm, Option.some.injEq] at hn
            exact hn
        subst hmn
        refine ⟨?_, Or.inr ⟨fun t ht => ?_, fun t ht => ?_⟩⟩
        · rw [Node.touched_isDir, Node.isDir, Node.isDir, hc]
        · rw [hc] at ht
          cases ht
        · cases ht
      · exact hs.extends
    | dir => exact hs.extends
    | symlink t => exact hs.extends
  | none =>
    dsimp only
    split
    · exact addEntry_extends hs hq hn _ _ (fun t ht => by cases ht)
    · exact hs.extends

theorem copyFile_extends (tree : ProjectTree) (child : RelPath) (st : SourceNode) (data : Bytes) :
    h.Extends (copyFile tree child st data h p).2 := by
  unfold copyFile
  split
  · exact hs.extends
  · split
    · exact hs.extends
    · split
      · exact hs.extends
      · exact writeWhole_extends hs hp data _

theorem changeMode_extends (mode : Nat) : h.Extends (h.changeMode p mode).2 := by
  refine lookAt_extends hs hp (fun q hq => ?_)
  cases nodeAt h.tree q with
  | none => exact hs.extends
  | some n => exact alter_extends hs (fun m _ => ⟨rfl, Or.inl rfl⟩)

theorem ensureDirectory_extends : h.Extends (h.ensureDirectory p).2 := by
  rw [Host.ensureDirectory]
  cases hr : h.resolve true p with
  | error e => exact hs.extends
  | ok q =>
    dsimp only
    cases hn : nodeAt h.tree q with
    | some n => exact hs.extends
    | none => exact addEntry_extends hs (resolve_lands hs hp hr) hn _ _ (fun t ht => by cases ht)

end calls

/-! ## The walk -/

/-- A step of a capture that only adds. -/
def Adds (f : CaptureState → Captured) : Prop := ∀ s : CaptureState, s.host.Sound → s.host.Extends (f s).2.host

theorem Adds.done {f : CaptureState → CaptureState} (hf : ∀ s, (f s).host = s.host) : Adds (fun s => (.ok (), f s)) := by
  intro s hs
  rw [hf]
  exact hs.extends

theorem Adds.andThen {f g : CaptureState → Captured} (hf : Adds f) (hg : Adds g) : Adds (fun s => (f s).andThen g) := by
  intro s hs
  have h₁ := hf s hs
  cases hr : f s with
  | mk r s₁ =>
    rw [hr] at h₁
    cases r with
    | error e =>
      simp only [hr, Captured.andThen]
      exact h₁
    | ok u =>
      simp only [hr, Captured.andThen]
      exact h₁.trans (hg s₁ h₁.sound)

section walk

variable {walk : CaptureWalk} (hw : walk.tree.WF) (hb : ∀ base, walk.base = some base → Ordinary base)

include hb

theorem write_adds {child : RelPath} (hc : Ordinary child) {f : Host → HostPath → Except Errno Unit × Host}
    (hf : ∀ (h : Host) p, h.Sound → Ordinary p → h.Extends (f h p).2) (e : Errno → CaptureError) :
    Adds (fun s => walk.write child s f e) := by
  intro s hs
  dsimp only
  unfold CaptureWalk.write
  cases hbase : walk.base with
  | none => exact hs.extends
  | some base =>
    have hx := hf s.host (base ++ child) hs ((hb base hbase).append hc)
    dsimp only
    split
    · exact hs.extends
    · cases hr : f s.host (base ++ child) with
      | mk r h' =>
        rw [hr] at hx
        cases r <;> exact hx

theorem chmod_adds {child : RelPath} (hc : Ordinary child) (perm : Nat) : Adds (fun s => (.ok (), walk.chmod child perm s)) := by
  intro s hs
  unfold CaptureWalk.chmod
  cases hbase : walk.base with
  | none => exact hs.extends
  | some base => exact changeMode_extends hs ((hb base hbase).append hc) perm

theorem captureKept_adds {recurse : RelPath → SourceNode → CaptureState → Captured} (hrec : ∀ r d, Adds (recurse r d))
    {child : RelPath} (hc : Ordinary child) (st : SourceNode) : Adds (captureKept walk recurse child st) := by
  unfold captureKept
  cases st.kind with
  | symlink target => exact write_adds hb hc (fun h p hs hp => makeSymlink_extends hs hp target) _
  | special => exact Adds.done (fun _ => rfl)
  | dir =>
    refine (write_adds hb hc (fun h p hs hp => makeDirectory_extends hs hp) _).andThen ?_
    intro s hs
    have hm := chmod_adds hb hc st.perm s hs
    exact hm.trans (hrec child st _ hm.sound)
  | file data =>
    refine (write_adds hb hc (fun h p hs hp => ?_) _).andThen (fun s hs => chmod_adds hb hc st.perm s hs)
    exact copyFile_extends hs hp walk.tree child st data

include hw

theorem captureEntry_adds {recurse : RelPath → SourceNode → CaptureState → Captured} (hrec : ∀ r d, Adds (recurse r d))
    (relative : RelPath) (dir : SourceNode) (name : Name) : Adds (captureEntry walk recurse relative dir name) := by
  intro s hs
  unfold captureEntry
  split
  · exact hs.extends
  · cases hget : walk.tree.lstatIn dir (joinRelative relative name) with
    | none => exact hs.extends
    | some st =>
      dsimp only
      split
      · exact hs.extends
      · split
        · exact hs.extends
        · have hc : Ordinary (joinRelative relative name) := by
            rw [ProjectTree.lstatIn, Option.ite_none_right_eq_some] at hget
            exact hw.ordinary _ (by rw [hget.2]; rfl)
          exact (captureKept_adds hb hrec hc st).andThen (fun s hs => hs.extends) s hs

omit hw hb in
theorem captureEach_adds {f : Name → CaptureState → Captured} (hf : ∀ n, Adds (f n)) (names : List Name) :
    Adds (captureEach f names) := by
  induction names with
  | nil => exact Adds.done (fun _ => rfl)
  | cons n names ih => exact (hf n).andThen ih

theorem captureDirectory_adds (fuel : Nat) : ∀ relative dir, Adds (captureDirectory walk fuel relative dir) := by
  induction fuel with
  | zero => exact fun _ _ s hs => hs.extends
  | succ fuel ih =>
    intro relative dir s hs
    unfold captureDirectory
    split
    · exact hs.extends
    · exact captureEach_adds (captureEntry_adds hw hb ih relative dir) _ s hs

omit hw in
theorem writeCompiledPolicy_adds : Adds (writeCompiledPolicy walk) := by
  have hc : Ordinary [kCapturePolicyFileName] := by decide
  intro s hs
  unfold writeCompiledPolicy
  split
  · have hwrite := write_adds hb hc (f := fun h p =>
        if walk.tree.opens 0 then h.writeWhole p walk.policy.source (h.maskPerm 438) else (.error noDescriptor, h))
      (fun h p hs hp => by
        split
        · exact writeWhole_extends hs hp walk.policy.source (h.maskPerm 438)
        · exact hs.extends) CaptureError.cannotWritePolicy
    have hmode := write_adds hb hc (fun h p hs hp => changeMode_extends hs hp walk.policy.sourceMode)
      CaptureError.cannotPreservePolicy
    exact (hwrite.andThen hmode).andThen (fun s hs => hs.extends) s hs
  · exact hs.extends

end walk

theorem createBaseDirectories_adds {ps : List HostPath} (hps : ∀ p ∈ ps, Ordinary p) : Adds (fun s => createBaseDirectories s ps) := by
  induction ps with
  | nil => exact Adds.done (fun _ => rfl)
  | cons p ps ih =>
    intro s hs
    dsimp only
    have hx := ensureDirectory_extends hs (hps p List.mem_cons_self)
    rw [createBaseDirectories]
    cases hr : s.host.ensureDirectory p with
    | mk r h' =>
      rw [hr] at hx
      cases r with
      | error e => exact hx
      | ok u => exact hx.trans (ih (fun q hq => hps q (List.mem_cons_of_mem _ hq)) { s with host := h' } hx.sound)

theorem createDirectoriesWithin_adds (limits : Limits) {p : HostPath} (hp : Ordinary p) : Adds (createDirectoriesWithin limits p) := by
  intro s hs
  unfold createDirectoriesWithin
  split
  · exact createBaseDirectories_adds (fun q hq => hp.of_initial ((List.mem_inits q p).mp hq)) s hs
  · exact hs.extends

theorem createBase_adds {walk : CaptureWalk} (hb : ∀ base, walk.base = some base → Ordinary base) : Adds (createBase walk) := by
  intro s hs
  unfold createBase
  cases hbase : walk.base with
  | none => exact hs.extends
  | some base => exact createDirectoriesWithin_adds walk.tree.limits (hb base hbase) s hs

/-- A capture, complete or not, only adds. -/
theorem walkProject_extends {walk : CaptureWalk} (hw : walk.tree.WF) (hb : ∀ base, walk.base = some base → Ordinary base)
    {h : Host} (hs : h.Sound) : h.Extends (walkProject walk h).2.host := by
  unfold walkProject
  split
  · exact hs.extends
  · exact (((createBase_adds hb).andThen (writeCompiledPolicy_adds hb)).andThen
      (captureDirectory_adds hw hb _ _ _)) ⟨h, {}⟩ hs

end TribiosVfs

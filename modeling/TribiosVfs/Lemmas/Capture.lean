import TribiosVfs.Lemmas.HostRuns
import TribiosVfs.Lemmas.Selection

/-!
# What a capture writes

`image` is the Base state a capture is to make: the entries that the policy and the fixed rules select, and the policy file. A
capture that succeeds has made it, whatever entries were in the Base directory before, as long as they fit it (`captureBaseState_image`).
-/

namespace TribiosVfs

/-- What the capture shows of an entry: its contents, and the permission bits of a file or a directory. -/
def SourceNode.image (n : SourceNode) : Contents × Nat :=
  match n.kind with
  | .file data => (.file data, permBits n.perm)
  | .symlink target => (.symlink target, 511)
  | _ => (.dir, permBits n.perm)

/-- The Base state a capture is to make. -/
def image (tree : ProjectTree) (policy : CapturePolicy) (p : RelPath) : Option (Contents × Nat) :=
  if policy.present = true ∧ p = [kCapturePolicyFileName] then some (.file policy.source, permBits policy.sourceMode)
  else if selected tree policy p then (tree.entries.get p).map SourceNode.image else none

/-- What a Base directory shows. -/
def Node.image (n : Node) : Contents × Nat := (n.contents, n.attrs.perm)

def baseImage (h : Host) (base : HostPath) (p : RelPath) : Option (Contents × Nat) := (h.tree.get (base ++ p)).map Node.image

section image

variable {tree : ProjectTree} {policy : CapturePolicy} {p : RelPath} {n : SourceNode}

theorem image_of_selected (h : selected tree policy p = true) (hn : tree.entries.get p = some n) :
    image tree policy p = some n.image := by
  have hp : p ≠ [kCapturePolicyFileName] := by
    rintro rfl
    rw [not_selected_policyFile] at h
    cases h
  rw [image, if_neg (fun hc => hp hc.2), if_pos h, hn]
  rfl

theorem image_eq_none (h : selected tree policy p = false) (hp : policy.present = true → p ≠ [kCapturePolicyFileName]) :
    image tree policy p = none := by
  rw [image, if_neg (fun hc => hp hc.1 hc.2), if_neg (by rw [h]; exact Bool.false_ne_true)]

end image

/-! ## Writing at a real path -/

section writing

variable {h : Host} (hw : h.tree.WF) {p : HostPath} (hne : p ≠ []) (hp : Ordinary p) (hd : isDirAt h.tree p.dropLast = true)

include hw hp hd

theorem lookAt_real {α : Type} {follow : Bool} {f : HostPath → Except Errno α × Host}
    (hl : follow = true → ∀ n, h.tree.get p = some n → n.isLnk = false) :
    h.lookAt follow p f = if h.maySearch p.dropLast then f p else (.error accessDenied, h) := by
  rw [Host.lookAt, Host.at, resolve_real hw hp hd hl]

include hne

theorem makeDirectory_ok {h' : Host} (hl : ∀ n, h.tree.get p = some n → n.isLnk = false)
    (hok : h.makeDirectory p = (.ok (), h')) : h.maySearch p.dropLast = true ∧
      ((∃ n, h.tree.get p = some n ∧ n.isDir = true ∧ h' = h) ∨
        (h.tree.get p = none ∧ h' = h.addEntry p .dir (h.directoryPerm p.dropLast 511))) := by
  rw [Host.makeDirectory, lookAt_real hw hp hd (fun _ => hl)] at hok
  split at hok
  · rename_i hs
    refine ⟨hs, ?_⟩
    rw [nodeAt_of_ne hne] at hok
    cases hn : h.tree.get p with
    | some n =>
      rw [hn] at hok
      cases hdir : n.isDir with
      | true =>
        simp only [hdir, if_true, Prod.mk.injEq, true_and] at hok
        exact Or.inl ⟨n, rfl, hdir, hok.symm⟩
      | false => simp [hdir] at hok
    | none =>
      rw [hn] at hok
      dsimp only at hok
      split at hok
      · cases hok
        exact Or.inr ⟨rfl, rfl⟩
      · cases hok
  · cases hok

theorem makeSymlink_ok {h' : Host} {target : Bytes} (hok : h.makeSymlink target p = (.ok (), h')) :
    h.tree.get p = none ∧ h' = h.addEntry p (.symlink (cStr target)) 511 := by
  rw [Host.makeSymlink] at hok
  split at hok
  · cases hok
  · rw [lookAt_real hw hp hd (fun hf => by cases hf), nodeAt_of_ne hne] at hok
    split at hok
    · cases hn : h.tree.get p with
      | some n =>
        rw [hn] at hok
        cases hok
      | none =>
        rw [hn] at hok
        dsimp only at hok
        split at hok
        · cases hok
          exact ⟨rfl, rfl⟩
        · cases hok
    · cases hok

theorem writeWhole_ok {h' : Host} {data : Bytes} {perm : Nat} (hl : ∀ n, h.tree.get p = some n → n.isLnk = false)
    (hok : h.writeWhole p data perm = (.ok (), h')) : h.maySearch p.dropLast = true ∧
      ((∃ n, h.tree.get p = some n ∧ n.isDir = false ∧
          h' = h.alter p (fun n => ({ n with contents := .file data } : Node).touched h.now)) ∨
        (h.tree.get p = none ∧ h' = h.addEntry p (.file data) perm)) := by
  rw [Host.writeWhole, lookAt_real hw hp hd (fun _ => hl), nodeAt_of_ne hne] at hok
  split at hok
  · rename_i hs
    refine ⟨hs, ?_⟩
    cases hn : h.tree.get p with
    | some n =>
      rw [hn] at hok
      cases hc : n.contents with
      | file old =>
        simp only [hc] at hok
        split at hok
        · cases hok
          exact Or.inl ⟨n, rfl, by rw [Node.isDir, hc], rfl⟩
        · cases hok
      | dir => simp [hc] at hok
      | symlink t => simp [hc] at hok
    | none =>
      rw [hn] at hok
      dsimp only at hok
      split at hok
      · cases hok
        exact Or.inr ⟨rfl, rfl⟩
      · cases hok
  · cases hok

theorem changeMode_real {n : Node} {mode : Nat} (hn : h.tree.get p = some n) (hl : n.isLnk = false)
    (hs : h.maySearch p.dropLast = true) :
    h.changeMode p mode =
      (.ok (), h.alter p (fun n => { n with attrs := { n.attrs with perm := permBits mode, ctime := h.now } })) := by
  rw [Host.changeMode, lookAt_real hw hp hd (fun _ m hm => by rw [hn, Option.some.injEq] at hm; exact hm ▸ hl), if_pos hs,
    nodeAt_of_ne hne, hn]

end writing

/-! ## What a write leaves in the Base directory -/

theorem baseImage_addEntry {h : Host} {base : HostPath} {child : RelPath} (hne : base ++ child ≠ []) (c : Contents) (perm : Nat)
    (q : RelPath) :
    baseImage (h.addEntry (base ++ child) c perm) base q = if q = child then some (c, perm) else baseImage h base q := by
  rw [baseImage, addEntry_get h hne]
  by_cases hq : q = child
  · rw [if_pos (by rw [hq]), if_pos hq]
    rfl
  · rw [if_neg (fun e => hq (List.append_cancel_left e)), if_neg hq]
    split
    · rw [Option.map_map]
      rfl
    · rfl

theorem baseImage_alter {h : Host} {base : HostPath} {child : RelPath} {f : Node → Node} {n : Node} {x : Contents × Nat}
    (hn : h.tree.get (base ++ child) = some n) (hf : (f n).image = x) (q : RelPath) :
    baseImage (h.alter (base ++ child) f) base q = if q = child then some x else baseImage h base q := by
  rw [baseImage, alter_get]
  by_cases hq : q = child
  · rw [if_pos (by rw [hq]), if_pos hq, hq, hn, ← hf]
    rfl
  · rw [if_neg (fun e => hq (List.append_cancel_left e)), if_neg hq]
    rfl

theorem maySearch_alter {h : Host} {p q : HostPath} {f : Node → Node} (hq : q ≠ p) :
    (h.alter p f).maySearch q = h.maySearch q := by
  have hget : (h.alter p f).tree.get q = h.tree.get q := by rw [alter_get, if_neg hq]
  rw [Host.maySearch, Host.maySearch, nodeAt, nodeAt, hget]

theorem maySearch_addEntry {h : Host} {p q : HostPath} (hne : p ≠ []) (c : Contents) (perm : Nat) (hq : q ≠ p) :
    (h.addEntry p c perm).maySearch q = h.maySearch q := by
  rw [Host.maySearch, Host.maySearch, nodeAt, nodeAt]
  by_cases h0 : q = []
  · rw [if_pos h0, if_pos h0]
  · rw [if_neg h0, if_neg h0, addEntry_get h hne, if_neg hq]
    by_cases hd : q = p.dropLast
    · rw [if_pos hd]
      cases h.tree.get q <;> rfl
    · rw [if_neg hd]

theorem isDirAt_alter {h : Host} {p q : HostPath} {f : Node → Node}
    (hf : ∀ n, h.tree.get p = some n → (f n).isDir = n.isDir) (hq : isDirAt h.tree q = true) : isDirAt (h.alter p f).tree q = true := by
  by_cases h0 : q = []
  · rw [h0, isDirAt_nil]
  · obtain ⟨n, hget, hdir⟩ := (isDirAt_iff h0).mp hq
    rw [isDirAt_iff h0, alter_get, hget]
    by_cases hqp : q = p
    · exact ⟨f n, by rw [if_pos hqp]; rfl, (hf n (hqp ▸ hget)).trans hdir⟩
    · exact ⟨n, by rw [if_neg hqp], hdir⟩

/-! ## The captured copy of one entry -/

/-- One entry of the Base directory now shows something, and the others what they did. -/
structure Written (base : HostPath) (child : RelPath) (x : Contents × Nat) (h h' : Host) : Prop where
  wf : h'.tree.WF
  dirs : ∀ q, isDirAt h.tree q = true → isDirAt h'.tree q = true
  shows : ∀ q, baseImage h' base q = if q = child then some x else baseImage h base q

section steps

variable {h : Host} (hw : h.tree.WF) {base : HostPath} {child : RelPath} (hne : child ≠ []) (hp : Ordinary (base ++ child))
  (hd : isDirAt h.tree (base ++ child).dropLast = true)

include hw hne hp hd

theorem symlink_written {h' : Host} {target : Bytes} (hok : h.makeSymlink target (base ++ child) = (.ok (), h')) :
    Written base child (.symlink (cStr target), 511) h h' := by
  have hne' : base ++ child ≠ [] := by simp [hne]
  obtain ⟨hn, rfl⟩ := makeSymlink_ok hw hne' hp hd hok
  exact ⟨addEntry_wf hw hne' hp hd hn _ _, fun q => isDirAt_addEntry hne' _ _ hn, baseImage_addEntry hne' _ _⟩

/-- After a change of mode of an entry that is no symlink. -/
theorem mode_written {n : Node} (mode : Nat) (hn : h.tree.get (base ++ child) = some n) (hl : n.isLnk = false)
    (hs : h.maySearch (base ++ child).dropLast = true) :
    (h.changeMode (base ++ child) mode).1 = .ok () ∧
      Written base child (n.contents, permBits mode) h (h.changeMode (base ++ child) mode).2 := by
  have hne' : base ++ child ≠ [] := by simp [hne]
  rw [changeMode_real hw hne' hp hd hn hl hs]
  refine ⟨rfl, alter_wf hw _ (fun n => rfl), fun q => isDirAt_alter (fun n _ => rfl), fun q => ?_⟩
  exact baseImage_alter hn rfl q

theorem directory_written {h' : Host} (mode : Nat) (hl : ∀ n, h.tree.get (base ++ child) = some n → n.isLnk = false)
    (hok : h.makeDirectory (base ++ child) = (.ok (), h')) :
    Written base child (.dir, permBits mode) h (h'.changeMode (base ++ child) mode).2 := by
  have hne' : base ++ child ≠ [] := by simp [hne]
  obtain ⟨hs, ⟨n, hn, hdir, rfl⟩ | ⟨hn, rfl⟩⟩ := makeDirectory_ok hw hne' hp hd hl hok
  · have hm := (mode_written hw hne hp hd mode hn (hl n hn) hs).2
    rwa [Node.contents_of_isDir hdir] at hm
  · have hw' := addEntry_wf hw hne' hp hd hn .dir (h.directoryPerm (base ++ child).dropLast 511)
    have hdirs := fun q => isDirAt_addEntry (q := q) hne' .dir (h.directoryPerm (base ++ child).dropLast 511) hn
    have hself := (addEntry_get h hne' .dir (h.directoryPerm (base ++ child).dropLast 511) (base ++ child)).trans (if_pos rfl)
    have hs' : (h.addEntry (base ++ child) .dir (h.directoryPerm (base ++ child).dropLast 511)).maySearch (base ++ child).dropLast = true := by
      rw [maySearch_addEntry hne' _ _ (dropLast_ne_self hne')]
      exact hs
    have hm := (mode_written hw' hne hp (hdirs _ hd) mode hself rfl hs').2
    refine ⟨hm.wf, fun q hq => hm.dirs q (hdirs q hq), fun q => ?_⟩
    rw [hm.shows, baseImage_addEntry hne']
    split <;> rfl

theorem file_written {h' : Host} {data : Bytes} {perm : Nat} (mode : Nat)
    (hl : ∀ n, h.tree.get (base ++ child) = some n → n.isLnk = false)
    (hok : h.writeWhole (base ++ child) data perm = (.ok (), h')) :
    Written base child (.file data, permBits mode) h (h'.changeMode (base ++ child) mode).2 := by
  have hne' : base ++ child ≠ [] := by simp [hne]
  obtain ⟨hs, ⟨n, hn, hdir, rfl⟩ | ⟨hn, rfl⟩⟩ := writeWhole_ok hw hne' hp hd hl hok
  · let f : Node → Node := fun n => ({ n with contents := .file data } : Node).touched h.now
    have hf : ∀ m, h.tree.get (base ++ child) = some m → (f m).isDir = m.isDir := by
      intro m hm
      rw [hn, Option.some.injEq] at hm
      rw [← hm, hdir]
      rfl
    have hw' := alter_wf_at hw hn (hf n hn)
    have hdirs := fun q => isDirAt_alter (q := q) hf
    have hself : (h.alter (base ++ child) f).tree.get (base ++ child) = some (f n) := by rw [alter_get, if_pos rfl, hn]; rfl
    have hs' : (h.alter (base ++ child) f).maySearch (base ++ child).dropLast = true := by
      rw [maySearch_alter (dropLast_ne_self hne')]
      exact hs
    have hm := (mode_written hw' hne hp (hdirs _ hd) mode hself rfl hs').2
    refine ⟨hm.wf, fun q hq => hm.dirs q (hdirs q hq), fun q => ?_⟩
    rw [hm.shows, baseImage_alter hn rfl]
    split <;> rfl
  · have hw' := addEntry_wf hw hne' hp hd hn (.file data) perm
    have hdirs := fun q => isDirAt_addEntry (q := q) hne' (.file data) perm hn
    have hself := (addEntry_get h hne' (.file data) perm (base ++ child)).trans (if_pos rfl)
    have hs' : (h.addEntry (base ++ child) (.file data) perm).maySearch (base ++ child).dropLast = true := by
      rw [maySearch_addEntry hne' _ _ (dropLast_ne_self hne')]
      exact hs
    have hm := (mode_written hw' hne hp (hdirs _ hd) mode hself rfl hs').2
    refine ⟨hm.wf, fun q hq => hm.dirs q (hdirs q hq), fun q => ?_⟩
    rw [hm.shows, baseImage_addEntry hne']
    split <;> rfl

end steps

/-! ## The walk -/

/-- An entry that is to be there, and a symlink only where the same symlink is to be. -/
def Fits (x : Contents × Nat) (y : Option (Contents × Nat)) : Prop :=
  ∃ z, y = some z ∧ ∀ t, x.1 = .symlink t → z.1 = .symlink t

/-- How far a capture has come: the paths done show what they are to show, and the others hold nothing that does not fit. -/
structure Progress (tree : ProjectTree) (policy : CapturePolicy) (base : HostPath) (done : RelPath → Prop) (h : Host) : Prop where
  wf : h.tree.WF
  dir : isDirAt h.tree base = true
  shown : ∀ q, q ≠ [] → done q → baseImage h base q = image tree policy q
  rest : ∀ q, q ≠ [] → ¬done q → ∀ x, baseImage h base q = some x → Fits x (image tree policy q)

section walk

variable {tree : ProjectTree} {policy : CapturePolicy} {base : HostPath} {done done' : RelPath → Prop} {h h' : Host}

/-- Paths that are to show nothing are done as they are. -/
theorem Progress.skip (hp : Progress tree policy base done h) (hsub : ∀ q, done q → done' q)
    (hnone : ∀ q, q ≠ [] → done' q → ¬done q → image tree policy q = none) : Progress tree policy base done' h where
  wf := hp.wf
  dir := hp.dir
  shown q h0 hq := by
    by_cases hd : done q
    · exact hp.shown q h0 hd
    · have hi := hnone q h0 hq hd
      cases hx : baseImage h base q with
      | none => exact hi.symm
      | some x =>
        obtain ⟨z, hz, -⟩ := hp.rest q h0 hd x hx
        rw [hi] at hz
        cases hz
  rest q h0 hq := hp.rest q h0 (fun hd => hq (hsub q hd))

/-- An entry written as it is to show is done. -/
theorem Progress.write (hp : Progress tree policy base done h) {child : RelPath} {x : Contents × Nat}
    (hw : Written base child x h h') (hx : image tree policy child = some x) :
    Progress tree policy base (fun q => done q ∨ q = child) h' where
  wf := hw.wf
  dir := hw.dirs base hp.dir
  shown q h0 hq := by
    rw [hw.shows]
    by_cases hc : q = child
    · rw [if_pos hc, hc, hx]
    · rw [if_neg hc]
      exact hp.shown q h0 (hq.resolve_right hc)
  rest q h0 hq := by
    rw [not_or] at hq
    rw [hw.shows, if_neg hq.2]
    exact hp.rest q h0 hq.1

/-- What is not done is no symlink where no symlink is to be. -/
theorem Progress.not_link (hp : Progress tree policy base done h) (child : RelPath) (h0 : child ≠ []) (hd : ¬done child)
    {x : Contents × Nat} (hx : image tree policy child = some x) (hl : ∀ t, x.1 ≠ .symlink t) :
    ∀ n, h.tree.get (base ++ child) = some n → n.isLnk = false := by
  intro n hn
  have hshow : baseImage h base child = some (n.contents, n.attrs.perm) := by rw [baseImage, hn]; rfl
  obtain ⟨z, hz, hzl⟩ := hp.rest child h0 hd _ hshow
  rw [hx, Option.some.injEq] at hz
  cases hc : n.contents with
  | symlink t => exact absurd (hz ▸ hzl t hc) (hl t)
  | file data => rw [Node.isLnk, hc]
  | dir => rw [Node.isLnk, hc]

/-- What a step does: the paths beneath are done too, and every directory is one still. -/
def Done (tree : ProjectTree) (policy : CapturePolicy) (base : HostPath) (done beneath : RelPath → Prop) (s s' : CaptureState) :
    Prop :=
  Progress tree policy base (fun q => done q ∨ beneath q) s'.host ∧ ∀ q, isDirAt s.host.tree q = true → isDirAt s'.host.tree q = true

/-- Where a step beneath a directory of the walk starts. -/
structure Before (tree : ProjectTree) (policy : CapturePolicy) (base : HostPath) (relative : RelPath) (done beneath : RelPath → Prop)
    (s : CaptureState) : Prop where
  progress : Progress tree policy base done s.host
  dir : isDirAt s.host.tree (base ++ relative) = true
  fresh : ∀ q, beneath q → selected tree policy q = true → ¬done q
  policyFile : policy.present = true → done [kCapturePolicyFileName]

/-- Beneath paths that are to show nothing there is nothing to do. -/
theorem Progress.nothing (hp : Progress tree policy base done h) (hpol : policy.present = true → done [kCapturePolicyFileName])
    (beneath : RelPath → Prop) (hn : ∀ q, beneath q → selected tree policy q = false) :
    Progress tree policy base (fun q => done q ∨ beneath q) h :=
  hp.skip (fun _ => Or.inl) (fun q _ hq hd =>
    image_eq_none (hn q (hq.resolve_left hd)) (fun hpr he => hd (he ▸ hpol hpr)))

theorem Captured.andThen_ok {r : Captured} {f : CaptureState → Captured} {s' : CaptureState}
    (h : r.andThen f = (.ok (), s')) : ∃ s₁, r = (.ok (), s₁) ∧ f s₁ = (.ok (), s') := by
  obtain ⟨r, s₁⟩ := r
  cases r with
  | ok u => exact ⟨s₁, rfl, h⟩
  | error e => cases h

theorem selected_under_child (relative : RelPath) {q : RelPath} (name : Name) (hq : relative ++ [name] <+: q)
    (h : selected tree policy (relative ++ [name]) = false) : selected tree policy q = false := by
  rw [Bool.eq_false_iff]
  intro hs
  rw [selected_initial hs hq (by simp)] at h
  cases h

/-- Nothing is selected beneath what is no directory. -/
theorem not_selected_under_leaf (hw : tree.WF) {child q : RelPath} {st : SourceNode} (h0 : child ≠ [])
    (hn : tree.entries.get child = some st) (hd : st.isDir = false) (hq : child <+: q) (hne : q ≠ child) :
    selected tree policy q = false := by
  rw [Bool.eq_false_iff]
  intro hs
  obtain ⟨m, -, hm⟩ := selected_get hs
  rw [hw.rooted.get_under_leaf h0 hn hd hq (Ne.symm hne)] at hm
  cases hm

/-- The loop over the children of a directory. -/
theorem does_each {relative : RelPath} {f : Name → CaptureState → Captured} {names : List Name} (hnd : names.Nodup)
    (hf : ∀ n ∈ names, ∀ done s s', f n s = (.ok (), s') →
      Before tree policy base relative done (fun q => relative ++ [n] <+: q) s →
      Done tree policy base done (fun q => relative ++ [n] <+: q) s s') :
    ∀ done s s', captureEach f names s = (.ok (), s') →
      Before tree policy base relative done (fun q => ∃ n ∈ names, relative ++ [n] <+: q) s →
      Done tree policy base done (fun q => ∃ n ∈ names, relative ++ [n] <+: q) s s' := by
  induction names with
  | nil =>
    intro done s s' hok hb
    cases hok
    exact ⟨hb.progress.nothing hb.policyFile _ (fun q hq => by simp at hq), fun _ h => h⟩
  | cons n names ih =>
    intro done s s' hok hb
    obtain ⟨s₁, h₁, h₂⟩ := Captured.andThen_ok hok
    obtain ⟨hnot, hnd'⟩ := List.nodup_cons.mp hnd
    obtain ⟨hp₁, hd₁⟩ := hf n List.mem_cons_self done s s₁ h₁
      ⟨hb.progress, hb.dir, fun q hq => hb.fresh q ⟨n, List.mem_cons_self, hq⟩, hb.policyFile⟩
    have hfresh : ∀ q, (∃ m ∈ names, relative ++ [m] <+: q) → selected tree policy q = true →
        ¬(done q ∨ relative ++ [n] <+: q) := by
      rintro q ⟨m, hm, s, rfl⟩ hs (hd | ⟨s', he⟩)
      · exact hb.fresh _ ⟨m, List.mem_cons_of_mem _ hm, s, rfl⟩ hs hd
      · simp only [List.append_assoc, List.singleton_append, List.append_cancel_left_eq, List.cons.injEq] at he
        exact hnot (he.1 ▸ hm)
    obtain ⟨hp₂, hd₂⟩ := ih hnd' (fun m hm => hf m (List.mem_cons_of_mem _ hm)) _ s₁ s' h₂
      ⟨hp₁, hd₁ _ hb.dir, hfresh, fun hpr => Or.inl (hb.policyFile hpr)⟩
    refine ⟨hp₂.skip ?_ ?_, fun q hq => hd₂ q (hd₁ q hq)⟩
    · rintro q ((hd | hq) | ⟨m, hm, hq⟩)
      · exact Or.inl hd
      · exact Or.inr ⟨n, List.mem_cons_self, hq⟩
      · exact Or.inr ⟨m, List.mem_cons_of_mem _ hm, hq⟩
    · rintro q - (hd | ⟨m, hm, hq⟩) hnot'
      · exact absurd (Or.inl (Or.inl hd)) hnot'
      · rcases List.mem_cons.mp hm with rfl | hm
        · exact absurd (Or.inl (Or.inr hq)) hnot'
        · exact absurd (Or.inr ⟨m, hm, hq⟩) hnot'

/-- A write that succeeds is the call that it makes. -/
theorem write_ok {child : RelPath} {s s' : CaptureState} {f : Host → HostPath → Except Errno Unit × Host} {e : Errno → CaptureError}
    (hok : CaptureWalk.write ⟨tree, some base, policy⟩ child s f e = (.ok (), s')) :
    f s.host (base ++ child) = (.ok (), s'.host) ∧ s'.stats = s.stats := by
  simp only [CaptureWalk.write] at hok
  split at hok
  · cases hok
  · cases hr : f s.host (base ++ child) with
    | mk r h' =>
      rw [hr] at hok
      cases r with
      | error x => cases hok
      | ok u =>
        cases hok
        exact ⟨rfl, rfl⟩

/-- A copy that succeeds writes the whole file. -/
theorem copyFile_ok {child : RelPath} {st : SourceNode} {data : Bytes} {p : HostPath}
    (hok : copyFile tree child st data h p = (.ok (), h')) : h.writeWhole p data (permBits st.perm) = (.ok (), h') := by
  unfold copyFile at hok
  split at hok
  · cases hok
  · split at hok
    · cases hok
    · split at hok
      · cases hok
      · exact hok

/-- What the capture of a directory is to do. -/
def DoesDirectory (tree : ProjectTree) (policy : CapturePolicy) (base : HostPath)
    (recurse : RelPath → SourceNode → CaptureState → Captured) : Prop :=
  ∀ relative dir done s s', recurse relative dir s = (.ok (), s') → Opened tree policy relative dir →
    Before tree policy base relative done (fun q => relative <+: q ∧ q ≠ relative) s →
    Done tree policy base done (fun q => relative <+: q ∧ q ≠ relative) s s'

section kept

variable (hw : tree.WF) (hb : Ordinary base) {child : RelPath} {st : SourceNode} (h0 : child ≠ [])
  (hsel : selected tree policy child = true) (hst : tree.lstat child = some st) {s s' : CaptureState}
  (hbefore : Before tree policy base child.dropLast done (fun q => child <+: q) s)

include hw hb h0 hsel hst hbefore

/-- The copy of a selected entry. -/
theorem captureKept_does {recurse : RelPath → SourceNode → CaptureState → Captured} (hrec : DoesDirectory tree policy base recurse)
    (hok : captureKept ⟨tree, some base, policy⟩ recurse child st s = (.ok (), s')) :
    Done tree policy base done (fun q => child <+: q) s s' := by
  have hget : tree.entries.get child = some st := lstat_get hst
  have hord : Ordinary (base ++ child) := hb.append (hw.ordinary child (by rw [hget]; rfl))
  have hdir : isDirAt s.host.tree (base ++ child).dropLast = true := by
    rw [List.dropLast_append_of_ne_nil h0]
    exact hbefore.dir
  have hfresh : ¬done child := hbefore.fresh child (List.prefix_refl _) hsel
  have himage := image_of_selected hsel hget
  have hlink := hbefore.progress.not_link _ h0 hfresh himage
  have hcapturable : st.isCapturable = true := by
    obtain ⟨m, hm, -, hc, -⟩ := admits_iff.mp ((selected_iff.mp hsel).2.2 child (List.prefix_refl _) h0)
    rw [hst, Option.some.injEq] at hm
    exact hm ▸ hc
  -- beneath an entry that is no directory nothing is selected
  have hleaf : ∀ (x : Contents × Nat) (s₁ : CaptureState), st.isDir = false → st.image = x → Written base child x s.host s₁.host →
      Done tree policy base done (fun q => child <+: q) s s₁ := by
    intro x s₁ hd hx hwr
    have hp₁ := hbefore.progress.write hwr (himage.trans (congrArg some hx))
    refine ⟨(hp₁.nothing (fun hpr => Or.inl (hbefore.policyFile hpr)) (fun q => child <+: q ∧ q ≠ child)
      (fun q hq => not_selected_under_leaf hw h0 hget hd hq.1 hq.2)).skip ?_ ?_, hwr.dirs⟩
    · rintro q ((hq | rfl) | hq)
      · exact Or.inl hq
      · exact Or.inr (List.prefix_refl _)
      · exact Or.inr hq.1
    · rintro q - (hq | hq) hnot
      · exact absurd (Or.inl (Or.inl hq)) hnot
      · by_cases he : q = child
        · exact absurd (Or.inl (Or.inr he)) hnot
        · exact absurd (Or.inr ⟨hq, he⟩) hnot
  unfold captureKept at hok
  cases hk : st.kind with
  | special => rw [SourceNode.isCapturable, hk] at hcapturable; cases hcapturable
  | symlink target =>
    rw [hk] at hok
    have hwr := symlink_written hbefore.progress.wf h0 hord hdir (write_ok hok).1
    rw [(hw.target child st target hget hk).2] at hwr
    exact hleaf _ _ (by rw [SourceNode.isDir, hk]) (by rw [SourceNode.image, hk]) hwr
  | file data =>
    rw [hk] at hok
    obtain ⟨s₁, h₁, h₂⟩ := Captured.andThen_ok hok
    cases h₂
    have hwr := file_written hbefore.progress.wf h0 hord hdir st.perm
      (hlink (fun t => by simp [SourceNode.image, hk])) (copyFile_ok (write_ok h₁).1)
    exact hleaf _ _ (by rw [SourceNode.isDir, hk]) (by rw [SourceNode.image, hk]) hwr
  | dir =>
    rw [hk] at hok
    obtain ⟨s₁, h₁, h₂⟩ := Captured.andThen_ok hok
    have hwr := directory_written hbefore.progress.wf h0 hord hdir st.perm
      (hlink (fun t => by simp [SourceNode.image, hk])) (write_ok h₁).1
    have hp₁ := hbefore.progress.write hwr (himage.trans (by rw [SourceNode.image, hk]))
    have hself : isDirAt (s₁.host.changeMode (base ++ child) st.perm).2.tree (base ++ child) = true := by
      rw [isDirAt_iff (by simp [h0])]
      have hs := (hwr.shows child).trans (if_pos rfl)
      obtain ⟨n, hn, hi⟩ := Option.map_eq_some_iff.mp hs
      exact ⟨n, hn, Node.isDir_of_contents (congrArg Prod.fst hi)⟩
    have hfresh' : ∀ q, (child <+: q ∧ q ≠ child) → selected tree policy q = true → ¬(done q ∨ q = child) := by
      rintro q ⟨hq, hne⟩ hs (hd | he)
      · exact hbefore.fresh q hq hs hd
      · exact hne he
    obtain ⟨hp₂, hd₂⟩ := hrec child st _ _ s' h₂ (Or.inr ⟨hsel, hst⟩)
      ⟨hp₁, hself, hfresh', fun hpr => Or.inl (hbefore.policyFile hpr)⟩
    refine ⟨hp₂.skip ?_ ?_, fun q hq => hd₂ q (hwr.dirs q hq)⟩
    · rintro q ((hq | rfl) | hq)
      · exact Or.inl hq
      · exact Or.inr (List.prefix_refl _)
      · exact Or.inr hq.1
    · rintro q - (hq | hq) hnot
      · exact absurd (Or.inl (Or.inl hq)) hnot
      · by_cases he : q = child
        · exact absurd (Or.inl (Or.inr he)) hnot
        · exact absurd (Or.inr ⟨hq, he⟩) hnot

end kept

/-- One entry of the loop. -/
theorem captureEntry_does (hw : tree.WF) (hb : Ordinary base) {recurse : RelPath → SourceNode → CaptureState → Captured}
    (hrec : DoesDirectory tree policy base recurse) {relative : RelPath} {dir : SourceNode}
    (hopen : Opened tree policy relative dir) (name : Name) {s s' : CaptureState}
    (hok : captureEntry ⟨tree, some base, policy⟩ recurse relative dir name s = (.ok (), s'))
    (hbefore : Before tree policy base relative done (fun q => relative ++ [name] <+: q) s) :
    Done tree policy base done (fun q => relative ++ [name] <+: q) s s' := by
  have hpass : selected tree policy (relative ++ [name]) = false → s'.host = s.host →
      Done tree policy base done (fun q => relative ++ [name] <+: q) s s' := by
    intro hns hh
    unfold Done
    rw [hh]
    exact ⟨hbefore.progress.nothing hbefore.policyFile _ (fun q hq => selected_under_child _ _ hq hns), fun _ h => h⟩
  obtain ⟨hr, he⟩ | ⟨st, -, -, hbars, he⟩ | ⟨st, hsel, hst, he⟩ := @captureEntry_cases _ _ _ (some base) _ hopen recurse name
  · rw [he] at hok
    cases hok
    exact hpass (by rw [selected_eq, hr]; rfl) rfl
  · rw [he] at hok
    cases hok
    exact hpass (by rw [selected_eq, barred_of_bars hbars, Bool.not_true, Bool.and_false]) rfl
  · rw [he] at hok
    obtain ⟨s₁, h₁, h₂⟩ := Captured.andThen_ok hok
    cases h₂
    have hb' : Before tree policy base (relative ++ [name]).dropLast done (fun q => relative ++ [name] <+: q) s := by
      rw [List.dropLast_concat]
      exact hbefore
    have hd := captureKept_does hw hb (by simp) hsel hst hb' hrec h₁
    exact ⟨hd.1, hd.2⟩

/-- `capture_directory`: everything beneath the directory is done. -/
theorem captureDirectory_does (hw : tree.WF) (hb : Ordinary base) (fuel : Nat) :
    DoesDirectory tree policy base (captureDirectory ⟨tree, some base, policy⟩ fuel) := by
  induction fuel with
  | zero =>
    intro relative dir done s s' hok
    cases hok
  | succ fuel ih =>
    intro relative dir done s s' hok hopen hbefore
    unfold captureDirectory at hok
    split at hok
    · cases hok
    · have hsub : ∀ q, (∃ n ∈ tree.entries.names relative, relative ++ [n] <+: q) → relative <+: q ∧ q ≠ relative := by
        rintro q ⟨n, -, t, rfl⟩
        refine ⟨⟨[n] ++ t, by simp⟩, fun he => ?_⟩
        have := congrArg List.length he
        simp at this
      obtain ⟨hp, hd⟩ := does_each (tree.entries.nodup_names relative)
        (fun n _ done s s' hok hbefore => captureEntry_does hw hb ih hopen n hok hbefore) done s s' hok
        ⟨hbefore.progress, hbefore.dir, fun q hq => hbefore.fresh q (hsub q hq), hbefore.policyFile⟩
      refine ⟨hp.skip ?_ ?_, hd⟩
      · rintro q (hq | hq)
        · exact Or.inl hq
        · exact Or.inr (hsub q hq)
      · rintro q - (hq | ⟨⟨t, rfl⟩, hne⟩) hnot
        · exact absurd (Or.inl hq) hnot
        · -- a child that the directory does not list is no entry of the tree
          obtain ⟨n, t, rfl⟩ := List.exists_cons_of_ne_nil (l := t) (by rintro rfl; simp at hne)
          refine image_eq_none ?_ (fun hpr he => hnot (Or.inl (he ▸ hbefore.policyFile hpr)))
          refine selected_under_child relative n ⟨t, by simp⟩ ?_
          rw [Bool.eq_false_iff]
          intro hs
          obtain ⟨m, -, hm⟩ := selected_get hs
          exact hnot (Or.inr ⟨n, PathMap.mem_names.mpr (by rw [hm]; rfl), t, by simp⟩)

end walk

/-! ## The whole capture -/

/-- `create_directories` of a path whose entries are directories as far as they exist. -/
theorem createBaseDirectories_paved {p : HostPath} : ∀ {h : Host} (stats : CaptureStats), h.tree.WF → Site h p →
    ∃ h', createBaseDirectories ⟨h, stats⟩ p.inits = (.ok (), ⟨h', stats⟩) ∧ Paved p h h' := by
  have happend : ∀ (ps qs : List HostPath) (s : CaptureState),
      createBaseDirectories s (ps ++ qs) = (createBaseDirectories s ps).andThen (fun s => createBaseDirectories s qs) := by
    intro ps qs
    induction ps with
    | nil => exact fun s => rfl
    | cons p ps ih =>
      intro s
      rw [List.cons_append, createBaseDirectories, createBaseDirectories]
      cases s.host.ensureDirectory p with
      | mk r h' =>
        cases r with
        | ok u => exact ih { s with host := h' }
        | error e => rfl
  induction p using List.reverseRecOn with
  | nil =>
    intro h stats hw hs
    obtain ⟨h', hok, hp⟩ := ensureDirectory_paved hw hs (isDirAt_nil _)
    refine ⟨h', ?_, hp⟩
    change createBaseDirectories ⟨h, stats⟩ [[]] = _
    rw [createBaseDirectories, hok]
    rfl
  | append_singleton p n ih =>
    intro h stats hw hs
    obtain ⟨h₁, hok₁, hp₁⟩ := ih stats hw (hs.initial (List.prefix_append p [n]))
    obtain ⟨h₂, hok₂, hp₂⟩ := ensureDirectory_paved hp₁.wf (hp₁.site _ hs) (by rw [List.dropLast_concat]; exact hp₁.dir)
    refine ⟨h₂, ?_, hp₂.wf, hp₂.dir, fun q hq => hp₂.dirs q (hp₁.dirs q hq), fun q hq => ?_, fun q hq => hp₂.site q (hp₁.site q hq)⟩
    · have hinits : (p ++ [n]).inits = p.inits ++ [p ++ [n]] := by simp [List.inits_append]
      rw [hinits, happend, hok₁]
      simp only [Captured.andThen, createBaseDirectories, hok₂]
    · rw [hp₂.off q hq]
      exact hp₁.off q (fun hp => hq (hp.trans (List.prefix_append _ _)))

theorem Paved.baseImage {p base : HostPath} {h h' : Host} (hp : Paved p h h') {q : RelPath} (hq : ¬base ++ q <+: p) :
    TribiosVfs.baseImage h' base q = TribiosVfs.baseImage h base q := by
  rw [TribiosVfs.baseImage, hp.off _ hq]
  rfl

/-- The compiled policy is written as it is to show. -/
theorem writeCompiledPolicy_does {tree : ProjectTree} {policy : CapturePolicy} {base : HostPath} (hb : Ordinary base)
    {s s' : CaptureState} (hp : Progress tree policy base (fun _ => False) s.host)
    (hok : writeCompiledPolicy ⟨tree, some base, policy⟩ s = (.ok (), s')) :
    Progress tree policy base (fun q => policy.present = true ∧ q = [kCapturePolicyFileName]) s'.host := by
  unfold writeCompiledPolicy at hok
  by_cases hpr : policy.present = true
  · rw [if_pos hpr] at hok
    obtain ⟨s₂, h₂, h₃⟩ := Captured.andThen_ok hok
    obtain ⟨s₁, h₁, h₂⟩ := Captured.andThen_ok h₂
    have himage : image tree policy [kCapturePolicyFileName] = some (.file policy.source, permBits policy.sourceMode) :=
      if_pos ⟨hpr, rfl⟩
    have hlink := hp.not_link [kCapturePolicyFileName] (by simp) (fun h => h) himage (fun t => by simp)
    have hord : Ordinary [kCapturePolicyFileName] := by decide
    cases h₃
    have hwhole := (write_ok h₁).1
    split at hwhole
    · have hwr := file_written hp.wf (by simp) (hb.append hord) (by rw [List.dropLast_concat]; exact hp.dir) policy.sourceMode
        hlink hwhole
      rw [congrArg Prod.snd (write_ok h₂).1] at hwr
      refine (hp.write hwr himage).skip (fun q hq => ?_) (fun q _ hq hnot => absurd (Or.inr hq.2) hnot)
      exact ⟨hpr, hq.resolve_left id⟩
    · cases hwhole
  · rw [if_neg hpr] at hok
    cases hok
    exact hp.skip (fun _ => False.elim) (fun q _ hq _ => absurd hq.1 hpr)

/-- Where the directories are made, the path was not too long. -/
theorem createDirectoriesWithin_ok {limits : Limits} {p : HostPath} {s s' : CaptureState}
    (hok : createDirectoriesWithin limits p s = (.ok (), s')) : createBaseDirectories s p.inits = (.ok (), s') := by
  unfold createDirectoriesWithin at hok
  split at hok
  · exact hok
  · cases hok

/-- A capture that succeeds has made its image, when everything in the Base directory fits it. -/
theorem captureBaseState_image {tree : ProjectTree} {policy : CapturePolicy} {base : HostPath} {h : Host} (hw : tree.WF)
    (hwf : h.tree.WF) (hs : Site h base) {s' : CaptureState} (hok : captureBaseState tree base policy h = (.ok (), s'))
    (hfits : ∀ q, q ≠ [] → ∀ x, baseImage h base q = some x → Fits x (image tree policy q)) :
    ∀ q, q ≠ [] → baseImage s'.host base q = image tree policy q := by
  unfold captureBaseState walkProject at hok
  split at hok
  · cases hok
  · obtain ⟨s₂, h₂, h₃⟩ := Captured.andThen_ok hok
    obtain ⟨s₁, h₁, h₂⟩ := Captured.andThen_ok h₂
    obtain ⟨h', hc, hp⟩ := createBaseDirectories_paved {} hwf hs
    rw [createDirectoriesWithin_ok h₁, Prod.mk.injEq] at hc
    cases hc.2
    have hstart : Progress tree policy base (fun _ => False) h' := by
      refine ⟨hp.wf, hp.dir, fun _ _ => False.elim, fun q h0 _ x hx => hfits q h0 x ?_⟩
      rwa [hp.baseImage (fun hq => h0 (List.append_right_eq_self.mp (hq.eq_of_length_le (by simp))))] at hx
    have hpol := writeCompiledPolicy_does hs.ordinary hstart h₂
    have hdone := captureDirectory_does hw hs.ordinary tree.fuel [] tree.root _ s₂ s' h₃ (Or.inl ⟨rfl, rfl⟩)
      ⟨hpol, by rw [List.append_nil]; exact hpol.dir, ?_, fun hpr => ⟨hpr, rfl⟩⟩
    · intro q h0
      exact hdone.1.shown q h0 (Or.inr ⟨List.nil_prefix, h0⟩)
    · rintro q - hsel ⟨-, rfl⟩
      rw [not_selected_policyFile] at hsel
      cases hsel

end TribiosVfs

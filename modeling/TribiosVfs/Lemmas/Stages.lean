import TribiosVfs.Lemmas.Materialize
import TribiosVfs.Lemmas.Publishing

/-!
# Stages of one entry

What the operations on one file, directory or symlink stage: a new entry, or a copy of a visible file with its bytes changed. None
of them fails when the host takes every call.
-/

namespace TribiosVfs

open PublicationAux ViewAux MaterializeAux

/-- A tree of one entry. -/
structure Leaf (c : Contents) (sub : Forest Name Node) : Prop where
  entry : ∃ n, sub [] = some n ∧ n.contents = c
  alone : ∀ s, s ≠ [] → sub s = none

section stages

variable {α : Type} {e e' : Engine} {w w' : World} {r : RelPath}

/-- What is kept outside of the recovery directory is kept of the layers. -/
theorem Kept.layered (hk : Kept e (e.recoveryDir <+: ·) w w') (hh : Home e w') (ha : e.Agrees w.host.tree) :
    Layered e w'.host.tree ∧ e.view w'.host.tree = e.view w.host.tree := by
  have hp := hh.placed
  have hupper : ∀ p, e.upper w'.host.tree p = e.upper w.host.tree p := fun p => hk.upper hp (not_recovery_upper hp p)
  have hbase : e.base w'.host.tree = e.base w.host.tree := hk.base hp (fun q hq => Engine.Placed.own_recovery hq)
  refine ⟨⟨hp, hh.wf, hh.upper, hh.base, fun p n m hn hv hm => ?_⟩, ?_⟩
  · rw [hupper] at hn
    rw [hbase] at hm
    exact ha p n m hn hv hm
  · funext p
    rw [Engine.view, Engine.view, Forest.overlay, Forest.overlay, hupper, hbase]

theorem vacant_stage (hh : Home e w) (hrec : isDirAt w.host.tree e.recoveryDir = true) {id : Nat}
    (hn : w.host.tree.get (e.stagePath id) = none) : Vacant e w.host (e.stagePath id) := by
  refine ⟨hh.placed.stage_ordinary id, ?_, ?_, hn⟩
  · rw [stage_dropLast]
  · rw [stage_dropLast]
    exact hrec

/-- A call that makes a new entry stages it. -/
theorem prepares_new (call : HostPath → Call Unit) {c : Contents}
    (hcall : ∀ (w : World) (p : HostPath), w.host.tree.WF → p ≠ [] → Ordinary p → isDirAt w.host.tree p.dropLast = true →
      w.host.tree.get p = none → ∃ perm, exec (call p) w = (.ok (), { w with host := w.host.addEntry p c perm })) :
    Prepares e w (fun stage => Io.call (call stage)) (fun _ => Leaf c) := by
  intro id w₁ _ hh hrec hn
  have hva := vacant_stage hh hrec hn
  have hne := Vacant.ne hva
  obtain ⟨perm, hrun⟩ := hcall w₁ _ hh.wf hne hva.ordinary hva.parent hn
  have hget : (w₁.host.addEntry (e.stagePath id) c perm).tree.get (e.stagePath id) =
      some ⟨c, ⟨w₁.host.nextIno, perm, w₁.host.now, w₁.host.now, w₁.host.now⟩⟩ := by
    rw [addEntry_get _ hne, if_pos rfl]
  refine ends_call ?_
  rw [hrun]
  refine ⟨_, rfl, edit_addEntry hh.wf hne hva.ordinary hva.parent hn _ _, by rw [hget]; rfl,
    ⟨⟨c, ⟨w₁.host.nextIno, perm, w₁.host.now, w₁.host.now, w₁.host.now⟩⟩, ?_, rfl⟩, fun s hs => ?_⟩
  · rw [Tree.sub, List.append_nil]
    exact hget
  · exact addEntry_beneath hh.wf hne hn _ _ hs

theorem prepares_createFile (mode : Nat) :
    Prepares e w (fun stage => Io.call (.createFile stage mode)) (fun _ => Leaf (.file [])) :=
  prepares_new (fun stage => .createFile stage mode) (fun w p hw hne ho hd hn => ⟨w.host.maskPerm mode, by
    change ((w.host.createFile p mode).1, { w with host := (w.host.createFile p mode).2 }) = _
    rw [createFile_real hw hne ho hd, hn]⟩)

theorem prepares_mkdir (mode : Nat) : Prepares e w (fun stage => Io.call (.mkdir stage mode)) (fun _ => Leaf .dir) :=
  prepares_new (fun stage => .mkdir stage mode) (fun w p hw hne ho hd hn => ⟨w.host.directoryPerm p.dropLast mode, by
    change ((w.host.mkdir p mode).1, { w with host := (w.host.mkdir p mode).2 }) = _
    rw [mkdir_real hw hne ho hd, hn]⟩)

theorem prepares_symlink {target : Bytes} (ht : cStr target ≠ []) :
    Prepares e w (fun stage => Io.call (.symlink target stage)) (fun _ => Leaf (.symlink (cStr target))) :=
  prepares_new (fun stage => .symlink target stage) (fun w p hw hne ho hd hn => ⟨511, by
    change ((w.host.symlink target p).1, { w with host := (w.host.symlink target p).2 }) = _
    rw [symlink_real hw hne ho hd ht, hn]⟩)

/-- A change of the bytes of a file that is there. -/
def Rewrites (change : HostPath → Io α) (data data' : Bytes) (A : α → Prop) : Prop :=
  ∀ (w : World) (p : HostPath) (m : Node), w.host.tree.WF → w.env = {} → w.host.tree.get p = some m → m.contents = .file data →
    Ends (change p) w (fun a w' => A a ∧ ∃ f : Node → Node, w' = { w with host := w.host.alter p f } ∧ (f m).contents = .file data')
      (fun _ _ => False)

/-- A copy of a visible file, changed, is staged. -/
theorem prepares_changed {change : HostPath → Io α} {data data' : Bytes} {A : α → Prop} (hq : w.env = {})
    (ha : e.Agrees w.host.tree) (ho : Ordinary r) (hc : Unbarred (e.view w.host.tree) r) {n : Node}
    (hn : e.view w.host.tree r = some n) (hd : n.contents = .file data) (hch : Rewrites change data data' A) :
    Prepares e w (copyAndChange r change e) (fun a sub => A a ∧ Leaf (.file data') sub) := by
  intro id w₁ hk hh hrec hnone
  obtain ⟨hl, hview⟩ := hk.layered hh ha
  have hva := vacant_stage hh hrec hnone
  rw [← hview] at hc hn
  obtain ⟨m, hm, hmn⟩ := Option.map_eq_some_iff.mp (view_sight e w₁.host.tree r ▸ hn)
  have hmd : m.contents = .file data := by rw [← m.lasting_contents, hmn, hd]
  have hleaf : ∀ s, s ≠ [] → e.sight w₁.host.tree (r ++ s) = none := fun s hs => sight_beneath hl hs (fun k hk' => by
    rw [hm, Option.some.injEq] at hk'
    rw [← hk', Node.isDir, hmd])
  have htargets : SoundTargets (e.sight w₁.host.tree) r := by
    intro s k target hk' hlink
    by_cases h0 : s = []
    · rw [h0, List.append_nil, hm, Option.some.injEq] at hk'
      rw [← hk', hmd] at hlink
      cases hlink
    · rw [hleaf s h0] at hk'
      cases hk'
  unfold copyAndChange
  refine ends_bind (materialize_ends hl ho hc (by rw [hm]; rfl) htargets hva) (fun _ w₂ hw₂ => ?_)
  obtain ⟨h₂, rfl, hedit, hcopies⟩ := hw₂
  have hself := hcopies []
  simp only [List.append_nil, hm, Tree.sub] at hself
  generalize hk₂ : h₂.tree.get (e.stagePath id) = found at hself
  cases hself with
  | some hmir =>
    rename_i k
    have hkd : k.contents = .file data := hmir.contents.trans hmd
    refine (hch { w₁ with host := h₂ } (e.stagePath id) k hedit.wf (hk.env.trans hq) hk₂ hkd).mono (fun a w₃ hw₃ => ?_) (fun _ _ hx => hx)
    obtain ⟨hA, f, rfl, hf⟩ := hw₃
    have hdirs : (f k).isDir = k.isDir := by rw [Node.isDir, Node.isDir, hf, hkd]
    have hget := alter_self f hk₂
    refine ⟨_, rfl, hedit.trans (edit_alter hedit.wf hk₂ hdirs), by rw [hget]; rfl, hA, ⟨f k, ?_, hf⟩, fun s hs => ?_⟩
    · rw [Tree.sub, List.append_nil]
      exact hget
    · have hrel := hcopies s
      simp only [hleaf s hs, Tree.sub] at hrel
      rw [Tree.sub, alter_beneath _ _ _ hs]
      generalize h₂.tree.get (e.stagePath id ++ s) = found at hrel
      cases hrel
      rfl

theorem rewrite_at {β : Type} {h : Host} (hw : h.tree.WF) {p : HostPath} {m : Node} {data : Bytes} (hm : h.tree.get p = some m)
    (hd : m.contents = .file data) (b : β) (f : Bytes → Bytes) :
    h.rewrite p b f = (.ok b, h.alter p (fun n => ({ n with contents := .file (f data) } : Node).touched h.now)) := by
  rw [Host.rewrite, atNode_some hw hm (fun _ => by rw [Node.isLnk, hd]), hd]

theorem rewrites_truncate {size : Nat} (hs : size < offTLimit) (data : Bytes) :
    Rewrites (fun stage => Io.call (.truncate stage size)) data (resizeBytes data size) (fun _ => True) := by
  intro w p m hw _ hm hd
  have hrun : w.host.truncate p size = (.ok (), w.host.alter p (fun n =>
      ({ n with contents := .file (resizeBytes data size) } : Node).touched w.host.now)) := by
    rw [Host.truncate, if_neg (Nat.not_le_of_lt hs), rewrite_at hw hm hd () (fun data => resizeBytes data size)]
  exact ends_host (·.truncate p size) rfl hrun ⟨trivial, _, rfl, rfl⟩

/-- A change of the attributes of a file keeps its bytes. -/
theorem rewrites_attributes {call : HostPath → Call Unit} {f : Host → Node → Node}
    (hcall : ∀ (w : World) (p : HostPath), exec (call p) w =
      w.onHost (fun h => h.atNode true p (fun q _ => (.ok (), h.alter q (f h)))))
    (hf : ∀ h n, (f h n).contents = n.contents) (data : Bytes) :
    Rewrites (fun stage => Io.call (call stage)) data data (fun _ => True) := by
  intro w p m hw _ hm hd
  have hrun : w.host.atNode true p (fun q _ => (.ok (), w.host.alter q (f w.host))) = (.ok (), w.host.alter p (f w.host)) :=
    atNode_some hw hm (fun _ => by rw [Node.isLnk, hd])
  exact ends_host _ (hcall w p) hrun ⟨trivial, f w.host, rfl, (hf _ _).trans hd⟩

theorem rewrites_chmod (mode : Nat) (data : Bytes) :
    Rewrites (fun stage => Io.call (.chmod stage mode)) data data (fun _ => True) :=
  rewrites_attributes (f := fun h n => { n with attrs := { n.attrs with perm := permBits mode, ctime := h.now } })
    (fun _ _ => rfl) (fun _ _ => rfl) data

theorem rewrites_utimes (atime mtime : Int) (data : Bytes) :
    Rewrites (fun stage => Io.call (.utimes stage atime mtime)) data data (fun _ => True) :=
  rewrites_attributes (f := fun h n => { n with attrs := { n.attrs with atime := atime, mtime := mtime, ctime := h.now } })
    (fun _ _ => rfl) (fun _ _ => rfl) data

theorem rewrites_write {offset : Nat} (hs : offset < offTLimit) (data old : Bytes) :
    Rewrites (writeStage data offset) old (spliceBytes old (data.take maxTransfer) offset)
      (fun n => n = (data.take maxTransfer).length) := by
  intro w p m hw hq hm hd
  have hrun : w.host.pwrite p data offset = (.ok (data.take maxTransfer).length, w.host.alter p (fun n =>
      ({ n with contents := .file (spliceBytes old (data.take maxTransfer) offset) } : Node).touched w.host.now)) := by
    rw [Host.pwrite, if_neg (Nat.not_le_of_lt hs)]
    exact rewrite_at hw hm hd _ (fun old => spliceBytes old (data.take maxTransfer) offset)
  unfold writeStage
  refine ends_bind (R := fun n w' => n = data.length ∧ w' = w) (ends_quiet rfl ?_) (fun n w' hn => ?_)
  · rw [exec, hq]
    rfl
  obtain ⟨rfl, rfl⟩ := hn
  rw [List.take_length]
  exact ends_host (·.pwrite p data offset) rfl hrun ⟨rfl, _, rfl, rfl⟩

end stages

end TribiosVfs

import TribiosVfs.Lemmas.TreeOperations

/-!
# Operations on open files

The opening of a file, reads and writes through its handle, and the operations made of them, run alone with no call failing. A
handle reads the bytes its file had when it was opened or last written to through it; a write goes to the file that shows at the
handle's path.
-/

namespace TribiosVfs

open PublicationAux ViewAux PublishingAux MaterializeAux Runs

namespace CopyOnWriteAux

section opening

variable {e : Engine} {w : World} {r : RelPath}

/-- A file is open in a layer. -/
def InLayer (e : Engine) (w : World) (r : RelPath) (layer : Layer) (data : Bytes) : Prop :=
  ∃ n, w.host.tree.get (e.layerPath layer r) = some n ∧ n.contents = .file data

/-- The creation or the checks of an `open`. -/
theorem createForOpen_ends (flags : OpenFlags) (hs : Serves e w) (ho : Ordinary r) (hc : (e.shape w.host.tree).Clear r) (hne : r ≠ [])
    (hl : (e.shape w.host.tree).NoLink r) :
    (createForOpen r flags).Ends e w
      (fun layer e' w' => (((e.shape w.host.tree).IsFile r ∧ ¬(flags.creat = true ∧ flags.excl = true)) ∨
          (flags.creat = true ∧ (e.shape w.host.tree).Room r)) ∧
        Goes e w ((e.shape w.host.tree).put r (some (.file ((e.shape w.host.tree).bytes r)))) e' w' ∧
        InLayer e' w' r layer ((e.shape w.host.tree).bytes r))
      (fun _ e' w' => ¬(((e.shape w.host.tree).IsFile r ∧ ¬(flags.creat = true ∧ flags.excl = true)) ∨
          (flags.creat = true ∧ (e.shape w.host.tree).Room r)) ∧ Goes e w (e.shape w.host.tree) e' w') := by
  unfold createForOpen
  refine EngineM.ends_bind (find_ends hs ho hc) (fun found e₁ w₁ h₁ => ?_)
  obtain ⟨hlook, hfound, rfl, rfl⟩ := h₁
  cases found with
  | none =>
    have hnone : e₁.shape w₁.host.tree r = none := hfound.symm
    have hnofile : ¬(e₁.shape w₁.host.tree).IsFile r := by
      rintro ⟨data, hd⟩
      cases hnone.symm.trans hd
    have hbytes : (e₁.shape w₁.host.tree).bytes r = [] := by rw [PlainTree.bytes, hnone]
    refine EngineM.ends_bind (R := fun _ e' w' => flags.creat = true ∧ e' = e₁ ∧ w' = w₁)
      (EngineM.ends_refuse (fun h => ⟨Bool.not_eq_false _ ▸ h, rfl, rfl⟩) (fun h => ⟨?_, Goes.refl hs⟩)) (fun _ e₂ w₂ h₂ => ?_)
    · rintro (⟨hf, -⟩ | ⟨hcreat, -⟩)
      · exact hnofile hf
      · rw [h] at hcreat
        cases hcreat
    obtain ⟨hcreat, rfl, rfl⟩ := h₂
    refine EngineM.ends_bind ((publishAt_new (c := .file []) hs (by decide) ho hc hne hnone
      (fun e w => prepares_createFile 420)).mono (fun _ _ _ h => h) (fun _ e' w' h => ⟨?_, h.2⟩)) (fun _ e₃ w₃ h₃ => ?_)
    · rintro (⟨hf, -⟩ | ⟨-, hroom⟩)
      · exact hnofile hf
      · exact h.1 hroom
    · obtain ⟨hroom, hgoes, hput⟩ := h₃
      rw [hbytes]
      exact EngineM.ends_pure ⟨Or.inr ⟨hcreat, hroom⟩, hgoes, hput⟩
  | some found =>
    obtain ⟨layer, st⟩ := found
    rw [Option.map_some] at hfound
    have hst := lookup_layer (layered hs) ho (unbarred_of_clear hc) layer st hlook.symm
    have hnoroom : ¬(e₁.shape w₁.host.tree).Room r := by
      rintro ⟨-, hnone, -⟩
      cases hfound.trans hnone
    dsimp only
    refine EngineM.ends_bind (R := fun _ e' w' => st.isDir = false ∧ e' = e₁ ∧ w' = w₁)
      (EngineM.ends_refuse (fun h => ⟨Bool.not_eq_true _ ▸ h, rfl, rfl⟩) (fun h => ⟨?_, Goes.refl hs⟩)) (fun _ e₂ w₂ h₂ => ?_)
    · rintro (⟨⟨data, hd⟩, -⟩ | ⟨-, hroom⟩)
      · rw [Node.isDir, Option.some.inj (hfound.trans hd)] at h
        cases h
      · exact hnoroom hroom
    obtain ⟨hdir, rfl, rfl⟩ := h₂
    refine EngineM.ends_bind (R := fun _ e' w' => ¬(flags.creat = true ∧ flags.excl = true) ∧ e' = e₂ ∧ w' = w₂)
      (EngineM.ends_refuse (fun h => ⟨h, rfl, rfl⟩) (fun h => ⟨?_, Goes.refl hs⟩)) (fun _ e₃ w₃ h₃ => ?_)
    · rintro (⟨-, hno⟩ | ⟨-, hroom⟩)
      · exact hno h
      · exact hnoroom hroom
    obtain ⟨hno, rfl, rfl⟩ := h₃
    cases hcon : st.contents with
    | dir =>
      rw [Node.isDir, hcon] at hdir
      cases hdir
    | symlink target => exact absurd (hcon ▸ hfound).symm (hl target)
    | file data =>
      rw [hcon] at hfound
      have hbytes : (e₃.shape w₃.host.tree).bytes r = data := by rw [PlainTree.bytes, ← hfound]
      rw [hbytes, Forest.put_eq_self hfound.symm]
      exact EngineM.ends_pure ⟨Or.inl ⟨⟨data, hfound.symm⟩, hno⟩, Goes.refl hs, st, hst, hcon⟩

/-- The truncation of an `open` with `O_TRUNC`. -/
theorem truncateForOpen_ends (flags : OpenFlags) {layer : Layer} {data : Bytes} (hs : Serves e w) (ho : Ordinary r)
    (hc : (e.shape w.host.tree).Clear r) (hd : e.shape w.host.tree r = some (.file data)) (hin : InLayer e w r layer data) :
    (truncateForOpen r flags layer).Ends e w
      (fun layer' e' w' => Goes e w ((e.shape w.host.tree).put r (some (.file (if flags.trunc then [] else data)))) e' w' ∧
        InLayer e' w' r layer' (if flags.trunc then [] else data)) (fun _ _ _ => False) := by
  unfold truncateForOpen
  cases ht : flags.trunc with
  | false =>
    simp only [Bool.and_false, Bool.false_eq_true, if_false, Forest.put_eq_self hd]
    exact EngineM.ends_pure ⟨Goes.refl hs, hin⟩
  | true =>
    have hwriting : flags.forWriting = true := by
      rw [OpenFlags.forWriting, ht]
      simp
    simp only [hwriting, Bool.and_self, if_true]
    have hempty : resizeBytes data 0 = [] := by simp [resizeBytes]
    have hch := hempty ▸ rewrites_truncate (show 0 < offTLimit by decide) data
    exact EngineM.ends_bind (publishAt_changed hs (by decide) ho hc hd hch) (fun _ e' w' h => EngineM.ends_pure ⟨h.2.1, h.2.2⟩)

theorem clear_put {t : PlainTree} (h : t.Clear r) (c : Option Contents) : PlainTree.Clear (t.put r c) r := by
  intro a hap hne target
  rw [Forest.put_of_ne t hne]
  exact h a hap hne target

theorem openFile_ends (hs : Serves e w) {p : HostPath} {n : Node} {data : Bytes} (hn : w.host.tree.get p = some n)
    (hd : n.contents = .file data) (access : AccessMode) {X : Errno → World → Prop} :
    Ends (Io.call (.openFile p access)) w (fun d w' => d = ⟨n, access⟩ ∧ w' = w) X := by
  refine ends_quiet rfl ?_
  change (w.host.openFile p access).1 = .ok ⟨n, access⟩
  rw [Host.openFile, atNode_some hs.ready.home.wf hn (fun _ => by rw [Node.isLnk, hd]), Node.isDir, hd]
  rfl

/-- `open_handle`. -/
theorem openHandle_becomes {path : Bytes} (flags : OpenFlags) (hs : Serves e w) (ho : Ordinary (normalizeRelative path))
    (hc : (e.shape w.host.tree).Clear (normalizeRelative path)) (hl : (e.shape w.host.tree).NoLink (normalizeRelative path)) :
    (openHandle path flags).Ends e w
      (fun fd e' w' => (e.desk w.host.tree).Accepts (.openHandle path flags) ∧
        (e.desk w.host.tree).Tells (.openHandle path flags) (.handle fd) ∧
        Becomes e w ((e.desk w.host.tree).after (.openHandle path flags) (.handle fd)) e' w')
      (fun _ e' w' => ¬(e.desk w.host.tree).Accepts (.openHandle path flags) ∧ Becomes e w (e.desk w.host.tree) e' w') := by
  unfold openHandle
  refine EngineM.ends_bind (R := fun _ e' w' => normalizeRelative path ≠ [] ∧ e' = e ∧ w' = w)
    (EngineM.ends_refuse (fun h => ⟨h, rfl, rfl⟩) (fun h => ⟨?_, (Goes.refl hs).becomes⟩)) (fun _ e₁ w₁ h₁ => ?_)
  · rintro (⟨⟨data, hd⟩, -⟩ | ⟨-, hroom⟩)
    · exact ne_root hs hd (by simp) h
    · exact hroom.1 h
  obtain ⟨hne, rfl, rfl⟩ := h₁
  refine EngineM.ends_bind ((createForOpen_ends flags hs ho hc hne hl).mono (fun _ _ _ h => h)
    (fun _ _ _ h => ⟨h.1, h.2.becomes⟩)) (fun layer e₂ w₂ h₂ => ?_)
  obtain ⟨hacc, hgoes, hin⟩ := h₂
  have hd : e₂.shape w₂.host.tree (normalizeRelative path) =
      some (.file ((e₁.shape w₁.host.tree).bytes (normalizeRelative path))) := by
    rw [hgoes.shape, Forest.put_self]
  refine EngineM.ends_bind ((truncateForOpen_ends flags hgoes.serves ho (by rw [hgoes.shape]; exact clear_put hc _) hd
    hin).mono (fun _ _ _ h => h) (fun _ _ _ h => h.elim)) (fun layer' e₃ w₃ h₃ => ?_)
  obtain ⟨hgoes', n, hn, hnd⟩ := h₃
  -- a file of the Base tree is opened for reading, whatever was asked for
  have haccess : ∀ d : Descriptor, d = ⟨n, if layer' = .base ∧ flags.forWriting then .rdonly else flags.access⟩ →
      d.access = .wronly → flags.access = .wronly := by
    rintro d rfl hw
    dsimp only at hw
    split at hw
    · cases hw
    · exact hw
  refine EngineM.ends_bind (R := fun d e' w' => (d.file = n ∧ (d.access = .wronly → flags.access = .wronly)) ∧ e' = e₃ ∧ w' = w₃)
    (EngineM.ends_reads ((openFile_ends hgoes'.serves hn hnd _).mono (fun d _ h => ⟨⟨by rw [h.1], haccess d h.1⟩, rfl, h.2⟩)
      (fun _ _ h => h))) (fun m e₄ w₄ h₄ => ?_)
  obtain ⟨⟨rfl, hreadable⟩, rfl, rfl⟩ := h₄
  have htrans := hgoes.trans hgoes'
  have hsound : OpenHandle.Sound ⟨some m, flags, normalizeRelative path⟩ := by
    refine ⟨ho, ⟨m, _, rfl, hnd⟩, fun d hd => ?_⟩
    rw [Option.some.injEq] at hd
    exact hd ▸ hreadable
  have hfiles : (e₄.desk w₄.host.tree).files = (e₁.desk w₁.host.tree).files := by
    rw [Engine.desk, Engine.desk, htrans.handles]
  refine ⟨hacc, ?_, serves_addHandle htrans.serves hsound, ?_, htrans.kept, htrans.upperDir, htrans.baseDir⟩
  · intro entry hentry
    exact next_fresh htrans.serves entry (hfiles ▸ hentry)
  · have hbytes : m.file.bytes = if flags.trunc then [] else (e₁.shape w₁.host.tree).bytes (normalizeRelative path) := by
      rw [Node.bytes, hnd]
    have hshape : e₄.shape w₄.host.tree = (e₁.shape w₁.host.tree).put (normalizeRelative path) (some (.file m.file.bytes)) := by
      rw [htrans.shape, hgoes.shape, hbytes]
      exact Forest.put_put _ _ _ _
    change (e₄.addHandle ⟨some m, flags, normalizeRelative path⟩).desk w₄.host.tree = _
    rw [desk_addHandle htrans.serves, hfiles, hshape, OpenHandle.file, Option.map_some, Option.getD_some, hbytes]
    rfl

end opening

section handles

variable {e : Engine} {w : World} {fd : Int} {offset : Nat}

/-- `read_handle`. -/
theorem readHandle_becomes (fd : Int) {size : Nat} (hs : Serves e w) (hoff : offset < offTLimit) (hsize : size < offTLimit) :
    (readHandle fd size offset).Ends e w
      (fun data e' w' => (∃ f, (e.desk w.host.tree).file fd = some f ∧ data = (f.bytes.drop offset).take (min size maxTransfer)) ∧ e' = e ∧ w' = w)
      (fun _ e' w' => (∀ f, (e.desk w.host.tree).file fd = some f → f.access = .wronly) ∧ e' = e ∧ w' = w) := by
  refine EngineM.ends_reads ?_
  rw [desk_file]
  cases hf : e.findHandle fd with
  | none => exact ends_fail ⟨fun f hnone => (by cases hnone), rfl, rfl⟩
  | some handle =>
    have hsound := findHandle_sound hs hf
    obtain ⟨d, data, hback, hd⟩ := hsound.backed
    by_cases hw : d.access = .wronly
    · have hrun : (Io.call (.pread handle.backing size offset)).run exec w = (.error .EBADF, w) := by
        rw [run_call w _ rfl, exec, hback, Descriptor.pread, if_neg (Nat.not_le_of_lt hoff)]
        simp only [hw, if_true]
      refine ends_of_run hrun ⟨fun f hfile => ?_, rfl, rfl⟩
      rw [Option.map_some, Option.some.injEq] at hfile
      rw [← hfile]
      exact hsound.readable d hback hw
    · have hread : (exec (.pread handle.backing size offset) w).1 = .ok ((data.drop offset).take (min size maxTransfer)) := by
        rw [exec, hback, Descriptor.pread, if_neg (Nat.not_le_of_lt hoff)]
        simp only [hw, if_false, Nat.not_le_of_lt hsize, hd]
      refine (ends_quiet rfl hread).mono (fun out w' h => ⟨⟨handle.file, rfl, ?_⟩, rfl, h.2⟩) (fun _ _ h => h)
      rw [h.1, OpenHandle.file, hback, Option.map_some, Option.getD_some, Node.bytes, hd]

/-- `fsync_handle`. -/
theorem fsyncHandle_goes (fd : Int) (dataOnly : Bool) (hs : Serves e w)
    (hadm : ∀ f, (e.desk w.host.tree).file fd = some f → (e.shape w.host.tree).Clear f.path) :
    (fsyncHandle fd dataOnly).Ends e w
      (fun _ e' w' => ((e.desk w.host.tree).file fd).isSome = true ∧ e' = e ∧ w' = w)
      (fun _ e' w' => ((e.desk w.host.tree).file fd).isSome = false ∧ e' = e ∧ w' = w) := by
  rw [desk_file] at hadm ⊢
  refine EngineM.ends_reads ?_
  cases hf : e.findHandle fd with
  | none => exact ends_fail ⟨rfl, rfl, rfl⟩
  | some handle =>
    obtain ⟨n, data, hback, -⟩ := (findHandle_sound hs hf).backed
    have ho := (findHandle_sound hs hf).ordinary
    have hclear := clear_upper (layered hs) ho (unbarred_of_clear (hadm handle.file (by rw [hf]; rfl)))
    have hsync : (exec (.fsyncDescriptor handle.backing) w).1 = .ok () := by
      rw [exec, hback]
      rfl
    refine ends_bind (ends_quiet rfl hsync) (fun _ w₁ h₁ => ?_)
    obtain ⟨-, rfl⟩ := h₁
    refine ends_bind (ends_lstatPath hs.ready.home.wf hclear) (fun found w₂ h₂ => ?_)
    obtain ⟨rfl, rfl⟩ := h₂
    cases hn : w₂.host.tree.get (e.upperPath handle.relative) with
    | none => exact ends_pure ⟨rfl, rfl, rfl⟩
    | some m =>
      have hd := hs.ready.home.wf.isDirAt_parent (by rw [hn]; rfl)
      exact ends_orFail (X := fun _ _ => False) ((ends_fsyncDirectory hs.ready.home.wf
        (hclear.ordinary.of_initial (List.dropLast_prefix _)) hd).mono (fun _ _ h => ⟨rfl, rfl, h⟩) (fun _ _ h => h))
        (fun _ _ h => h.elim)

/-- `close` of the old descriptor and `open` of the published file. -/
theorem reopenHandle_ends {handle : OpenHandle} {n : Node} {data : Bytes} (hs : Serves e w)
    (hn : w.host.tree.get (e.upperPath handle.relative) = some n) (hd : n.contents = .file data) :
    (reopenHandle fd handle).Ends e w (fun _ e' w' => e' = e.setBacking fd (some ⟨n, handle.flags.access⟩) ∧ w' = w)
      (fun _ _ _ => False) := by
  refine EngineM.ends_bind (R := fun found e' w' => found = .ok ⟨n, handle.flags.access⟩ ∧ e' = e ∧ w' = w) (EngineM.ends_attempt
    (EngineM.ends_reads ((openFile_ends hs hn hd _).mono (fun _ _ h => ⟨by rw [h.1], rfl, h.2⟩) (fun _ _ h => h))))
    (fun found e' w' h => ?_)
  obtain ⟨rfl, rfl, rfl⟩ := h
  exact EngineM.ends_modify ⟨rfl, rfl⟩

/-- A stage that copies what is not there cannot be prepared. -/
theorem copy_missing {α : Type} {r : RelPath} {change : HostPath → Io α} (hs : Serves e w) (ho : Ordinary r)
    (hc : (e.shape w.host.tree).Clear r) (hnone : e.shape w.host.tree r = none) {e₁ : Engine} {id : Nat} {w₁ w₂ : World}
    (hcar : Carried e w r e₁ w₁) (hb : Begun (e₁.forget r) id w₁ w₂) :
    Ends (copyAndChange r change (e₁.forget r) (e₁.stagePath id)) w₂ (fun _ _ => False) (fun _ w₃ => w₃ = w₂) := by
  have hm := hcar.memory
  have hl₁ := hcar.agrees hs.agrees
  obtain ⟨hl, hview⟩ := hb.kept.layered hb.home (by rw [hm]; exact hl₁)
  have hsame : (e₁.forget r).view w₁.host.tree = e.view w₁.host.tree := by
    rw [hm]
    rfl
  have hview₂ : (e₁.forget r).view w₂.host.tree = e.view w₁.host.tree := hview.trans hsame
  have hlook : (e₁.forget r).lookup w₂.host r = none := by
    have hsight := lookup_sight hl ho (by rw [hview₂]; exact hcar.unbarred (unbarred_of_clear hc))
    have hgone : (e₁.forget r).view w₂.host.tree r = none := by
      rw [hview₂, ← Option.map_eq_none_iff (f := Node.contents), hcar.view_contents]
      exact hnone
    rw [view_sight, ← hsight, Option.map_map, Option.map_eq_none_iff] at hgone
    exact hgone
  unfold copyAndChange materialize
  refine ends_bind (R := fun _ _ => False) (ends_bind (R := fun fuel w' => fuel = w₂.host.tree.depth + 1 ∧ w' = w₂)
    (ends_call ⟨rfl, rfl⟩) (fun fuel w' h => ?_)) (fun _ _ h => h.elim)
  obtain ⟨rfl, rfl⟩ := h
  unfold materializeVisibleEntryAt
  refine ends_bind (ends_of_run (run_find w' r _) (Q := fun found w'' => found = none ∧ w'' = w') ⟨hlook, rfl⟩)
    (fun found w'' h => ?_)
  obtain ⟨rfl, rfl⟩ := h
  exact ends_fail rfl

/-- `write_handle`. -/
theorem writeHandle_becomes (fd : Int) (data : Bytes) (hs : Serves e w) (hoff : offset < offTLimit)
    (hadm : ∀ f, (e.desk w.host.tree).file fd = some f → (e.shape w.host.tree).Clear f.path ∧ (e.shape w.host.tree).NoLink f.path ∧
      e.shape w.host.tree f.path ≠ some .dir) :
    (writeHandle fd data offset).Ends e w
      (fun n e' w' => (e.desk w.host.tree).Accepts (.writeHandle fd data offset) ∧ n = (data.take maxTransfer).length ∧
        Becomes e w ((e.desk w.host.tree).after (.writeHandle fd data offset) (.size n)) e' w')
      (fun _ e' w' => ¬(e.desk w.host.tree).Accepts (.writeHandle fd data offset) ∧ Becomes e w (e.desk w.host.tree) e' w') := by
  have hfile := desk_file e w.host.tree fd
  cases hf : e.findHandle fd with
  | none =>
    rw [hf] at hfile
    refine EngineM.ends_of_eq (show writeHandle fd data offset e = EngineM.fail .EBADF e by rw [writeHandle, hf]; rfl)
      (EngineM.ends_fail ⟨?_, (Goes.refl hs).becomes⟩)
    rintro ⟨f, hff, -⟩
    cases hfile.symm.trans hff
  | some handle =>
    rw [hf, Option.map_some] at hfile
    obtain ⟨hc, hl, hnd⟩ := hadm _ hfile
    have ho := (findHandle_sound hs hf).ordinary
    have hpath : handle.file.path = handle.relative := rfl
    rw [hpath] at hc hl hnd
    refine EngineM.ends_of_eq (show writeHandle fd data offset e = (do
      EngineM.refuse (handle.flags.access = .rdonly) .EBADF
      let accepted ← publishAt .write handle.relative (copyAndChange handle.relative (writeStage data offset))
      reopenHandle fd handle
      return accepted : EngineM Nat) e by rw [writeHandle, hf]) ?_
    refine EngineM.ends_bind (R := fun _ e' w' => handle.flags.access ≠ .rdonly ∧ e' = e ∧ w' = w)
      (EngineM.ends_refuse (fun h => ⟨h, rfl, rfl⟩) (fun h => ⟨?_, (Goes.refl hs).becomes⟩)) (fun _ e₁ w₁ h₁ => ?_)
    · rintro ⟨f, hff, hacc, -⟩
      rw [hfile, Option.some.injEq] at hff
      exact hacc (hff ▸ h)
    obtain ⟨hacc, rfl, rfl⟩ := h₁
    cases hd : e₁.shape w₁.host.tree handle.relative with
    | none =>
      have hne : handle.relative ≠ [] := by
        intro h
        rw [h, shape_root hs] at hd
        cases hd
      refine EngineM.ends_bind (R := fun _ _ _ => False) ((publishAt_unstaged hs (by decide) ho hc hne
        (fun e' id w' w'' hcar hb => copy_missing hs ho hc hd hcar hb)).mono (fun _ _ _ h => h)
          (fun _ e' w' h => ⟨?_, h.becomes⟩)) (fun _ _ _ h => h.elim)
      rintro ⟨f, hff, -, old, hold⟩
      rw [hfile, Option.some.injEq] at hff
      subst hff
      cases hd.symm.trans hold
    | some c =>
      cases c with
      | dir => exact absurd hd hnd
      | symlink target => exact absurd hd (hl target)
      | file old =>
        have hbytes : (e₁.shape w₁.host.tree).bytes handle.relative = old := by rw [PlainTree.bytes, hd]
        refine EngineM.ends_bind ((publishAt_changed hs (by decide) ho hc hd (rewrites_write hoff data old)).mono (fun _ _ _ h => h)
          (fun _ _ _ h => h.elim)) (fun n e₂ w₂ h₂ => ?_)
        obtain ⟨rfl, hgoes, m, hm, hmd⟩ := h₂
        refine EngineM.ends_bind ((reopenHandle_ends hgoes.serves hm hmd).mono (fun _ _ _ h => h) (fun _ _ _ h => h.elim))
          (fun _ e₃ w₃ h₃ => ?_)
        obtain ⟨rfl, rfl⟩ := h₃
        have hfound : e₂.findHandle fd = some handle := by rw [Engine.findHandle, hgoes.handles, ← hf]; rfl
        refine EngineM.ends_pure ⟨⟨_, hfile, hacc, old, hd⟩, rfl, serves_setBacking (d := ⟨m, handle.flags.access⟩)
          hgoes.serves fd hmd hfound rfl, ?_, hgoes.kept, hgoes.upperDir, hgoes.baseDir⟩
        rw [desk_setBacking (d := ⟨m, handle.flags.access⟩) fd hmd, hgoes.shape, hgoes.becomes.desk, Desk.after, hfile]
        have hwritten : (e₁.desk w₁.host.tree).written handle.file.path data offset =
            spliceBytes old (data.take maxTransfer) offset := by
          rw [Desk.written, ← hbytes]
          rfl
        dsimp only
        rw [hwritten]
        rfl

/-- A computation with a handle that is closed whatever comes of it. -/
theorem ends_withHandle {α : Type} {m : EngineM α} {Q : α → Engine → World → Prop} {X : Errno → Engine → World → Prop}
    (hm : m.Ends e w Q X) : (withHandle fd m).Ends e w (fun a e' w' => ∃ e₁, e' = e₁.close fd ∧ Q a e₁ w')
      (fun x e' w' => ∃ e₁, e' = e₁.close fd ∧ X x e₁ w') := by
  refine EngineM.ends_bind (EngineM.ends_attempt (R := fun r e₁ w₁ => Outcome (fun a => Q a e₁) (fun x => X x e₁) r w₁) hm)
    (fun r e₁ w₁ h => ?_)
  refine EngineM.ends_bind (R := fun _ e' w' => e' = e₁.close fd ∧ w' = w₁) (EngineM.ends_modify ⟨rfl, rfl⟩) (fun _ e₂ w₂ h₂ => ?_)
  obtain ⟨rfl, rfl⟩ := h₂
  cases r with
  | ok a => exact ⟨e₁, rfl, h⟩
  | error x => exact ⟨e₁, rfl, h⟩

end handles

/-! ## A file opened for one operation -/

section once

theorem file_added {t : PlainTree} {files : List (Int × OpenFile)} {fd : Int} {f : OpenFile} (h : ∀ entry ∈ files, entry.1 ≠ fd) :
    Desk.file ⟨t, files ++ [(fd, f)]⟩ fd = some f := by
  have hnone : files.find? (fun entry => entry.1 = fd) = none := by
    rw [List.find?_eq_none]
    intro entry hentry
    simpa using h entry hentry
  rw [Desk.file, List.find?_append, hnone]
  simp

theorem close_added {files : List (Int × OpenFile)} {fd : Int} {f : OpenFile} (h : ∀ entry ∈ files, entry.1 ≠ fd) :
    (files ++ [(fd, f)]).filter (fun entry => entry.1 ≠ fd) = files := by
  rw [List.filter_append, List.filter_eq_self.mpr (fun entry hentry => decide_eq_true (h entry hentry))]
  simp

theorem close_written {files : List (Int × OpenFile)} {fd : Int} {f : OpenFile} (h : ∀ entry ∈ files, entry.1 ≠ fd)
    (g : OpenFile → OpenFile) : ((files ++ [(fd, f)]).map (fun entry => if entry.1 = fd then (entry.1, g entry.2) else entry)).filter
      (fun entry => entry.1 ≠ fd) = files := by
  have hold : files.map (fun entry => if entry.1 = fd then (entry.1, g entry.2) else entry) = files :=
    (List.map_congr_left (g := id) (fun entry hentry => if_neg (h entry hentry))).trans (List.map_id files)
  rw [List.map_append, hold, List.map_singleton, if_pos rfl]
  exact close_added h

theorem after_writeHandle {s : Desk} {fd : Int} {f : OpenFile} (h : s.file fd = some f) (data : Bytes) (offset : Nat) (reply : Reply) :
    s.after (.writeHandle fd data offset) reply =
      ⟨s.tree.put f.path (some (.file (s.written f.path data offset))), s.files.map (fun entry =>
        if entry.1 = fd then (entry.1, { entry.2 with bytes := s.written f.path data offset }) else entry)⟩ := by
  simp only [Desk.after, h]

/-- A file opened to read it and closed again. -/
theorem read_once {s : Desk} {path : Bytes} {fd : Int} (h : ∀ entry ∈ s.files, entry.1 ≠ fd)
    (hf : s.tree.IsFile (normalizeRelative path)) :
    (⟨(s.after (.openHandle path {}) (.handle fd)).tree,
      (s.after (.openHandle path {}) (.handle fd)).files.filter (fun entry => entry.1 ≠ fd)⟩ : Desk) = s := by
  obtain ⟨data, hd⟩ := hf
  have hbytes : s.tree.bytes (normalizeRelative path) = data := by rw [PlainTree.bytes, hd]
  simp only [Desk.after, Bool.false_eq_true, if_false, hbytes, Forest.put_eq_self hd, close_added h]

/-- A file opened to write to it and closed again. -/
theorem written_once {s : Desk} {path data : Bytes} {fd : Int} {offset n : Nat} (h : ∀ entry ∈ s.files, entry.1 ≠ fd)
    {flags : OpenFlags} (ht : flags.trunc = false) :
    (⟨((s.after (.openHandle path flags) (.handle fd)).after (.writeHandle fd data offset) (.size n)).tree,
      ((s.after (.openHandle path flags) (.handle fd)).after (.writeHandle fd data offset) (.size n)).files.filter
        (fun entry => entry.1 ≠ fd)⟩ : Desk) = s.after (.writeFile path data offset) (.size n) := by
  have hopen : s.after (.openHandle path flags) (.handle fd) =
      ⟨s.tree.put (normalizeRelative path) (some (.file (s.tree.bytes (normalizeRelative path)))),
        s.files ++ [(fd, ⟨normalizeRelative path, flags.access, s.tree.bytes (normalizeRelative path)⟩)]⟩ := by
    simp only [Desk.after, ht, Bool.false_eq_true, if_false]
  have hbytes : PlainTree.bytes (s.tree.put (normalizeRelative path) (some (.file (s.tree.bytes (normalizeRelative path)))))
      (normalizeRelative path) = s.tree.bytes (normalizeRelative path) := by
    rw [PlainTree.bytes, Forest.put_self]
  rw [hopen, after_writeHandle (file_added h), Desk.after, Desk.put]
  simp only [Desk.written, hbytes, Forest.put_put]
  exact congrArg (Desk.mk _) (close_written h (fun f =>
    { f with bytes := spliceBytes (s.tree.bytes (normalizeRelative path)) (data.take maxTransfer) offset }))

/-- `read_file`. -/
theorem readFile_becomes {size : Nat} (hs : Serves e w) (ho : Ordinary (normalizeRelative path))
    (hc : (e.shape w.host.tree).Clear (normalizeRelative path)) (hl : (e.shape w.host.tree).NoLink (normalizeRelative path))
    (hoff : offset < offTLimit) (hsize : size < offTLimit) :
    (readFile path size offset).Ends e w
      (fun data e' w' => (e.shape w.host.tree).IsFile (normalizeRelative path) ∧
        data = (((e.shape w.host.tree).bytes (normalizeRelative path)).drop offset).take (min size maxTransfer) ∧
        Becomes e w (e.desk w.host.tree) e' w')
      (fun _ e' w' => ¬(e.shape w.host.tree).IsFile (normalizeRelative path) ∧ Becomes e w (e.desk w.host.tree) e' w') := by
  unfold readFile
  refine EngineM.ends_bind ((openHandle_becomes {} hs ho hc hl).mono (fun _ _ _ h => h)
    (fun _ _ _ h => ⟨fun hf => h.1 (Or.inl ⟨hf, fun hcreat => by cases hcreat.1⟩), h.2⟩)) (fun fd e₁ w₁ h₁ => ?_)
  obtain ⟨hacc, hfresh, hbec⟩ := h₁
  have hisfile : (e.shape w.host.tree).IsFile (normalizeRelative path) := by
    rcases hacc with ⟨hf, -⟩ | ⟨hcreat, -⟩
    · exact hf
    · cases hcreat
  refine (ends_withHandle (readHandle_becomes fd hbec.serves hoff hsize)).mono (fun data e' w' h => ?_)
    (fun _ e' w' h => ?_)
  · obtain ⟨e₂, rfl, ⟨f, hf, rfl⟩, rfl, rfl⟩ := h
    rw [hbec.desk, Desk.after, file_added hfresh, Option.some.injEq] at hf
    subst hf
    refine ⟨hisfile, rfl, ?_⟩
    have hclosed := hbec.close fd
    rwa [read_once hfresh hisfile] at hclosed
  · obtain ⟨e₂, -, hunasked, -⟩ := h
    have := hunasked _ (by rw [hbec.desk, Desk.after]; exact file_added hfresh)
    cases this

/-- `write_file`. -/
theorem writeFile_becomes {data : Bytes} (hs : Serves e w) (ho : Ordinary (normalizeRelative path))
    (hc : (e.shape w.host.tree).Clear (normalizeRelative path)) (hl : (e.shape w.host.tree).NoLink (normalizeRelative path))
    (hoff : offset < offTLimit) :
    (writeFile path data offset).Ends e w
      (fun n e' w' => (e.desk w.host.tree).Accepts (.writeFile path data offset) ∧ n = (data.take maxTransfer).length ∧
        Becomes e w ((e.desk w.host.tree).after (.writeFile path data offset) (.size n)) e' w')
      (fun _ e' w' => ¬(e.desk w.host.tree).Accepts (.writeFile path data offset) ∧ Becomes e w (e.desk w.host.tree) e' w') := by
  unfold writeFile
  refine EngineM.ends_bind ((openHandle_becomes { access := .rdwr, creat := true } hs ho hc hl).mono (fun _ _ _ h => h)
    (fun _ _ _ h => ⟨?_, h.2⟩)) (fun fd e₁ w₁ h₁ => ?_)
  · rintro (hf | hroom)
    · exact h.1 (Or.inl ⟨hf, fun hexcl => by cases hexcl.2⟩)
    · exact h.1 (Or.inr ⟨rfl, hroom⟩)
  obtain ⟨hacc, hfresh, hbec⟩ := h₁
  have haccepts : (e.desk w.host.tree).Accepts (.writeFile path data offset) := by
    rcases hacc with ⟨hf, -⟩ | ⟨-, hroom⟩
    · exact Or.inl hf
    · exact Or.inr hroom
  have hdesk := hbec.desk
  rw [Desk.after] at hdesk
  dsimp only at hdesk
  have htree : e₁.shape w₁.host.tree = (e.shape w.host.tree).put (normalizeRelative path)
      (some (.file ((e.shape w.host.tree).bytes (normalizeRelative path)))) := congrArg Desk.tree hdesk
  have hfile : (e₁.desk w₁.host.tree).file fd = some ⟨normalizeRelative path, .rdwr,
      (e.shape w.host.tree).bytes (normalizeRelative path)⟩ := by
    rw [hdesk]
    exact file_added hfresh
  have hself : e₁.shape w₁.host.tree (normalizeRelative path) =
      some (.file ((e.shape w.host.tree).bytes (normalizeRelative path))) := by
    rw [htree, Forest.put_self]
  have hbytes : (e₁.shape w₁.host.tree).bytes (normalizeRelative path) = (e.shape w.host.tree).bytes (normalizeRelative path) := by
    rw [PlainTree.bytes, hself]
  refine (ends_withHandle (writeHandle_becomes fd data hbec.serves hoff (fun f hf => ?_))).mono
    (fun n e' w' h => ?_) (fun _ e' w' h => ?_)
  · rw [hfile, Option.some.injEq] at hf
    subst hf
    refine ⟨?_, fun target ht => ?_, fun hd => ?_⟩
    · rw [htree]
      exact clear_put hc _
    · cases hself.symm.trans ht
    · cases hself.symm.trans hd
  · obtain ⟨e₂, rfl, -, rfl, hbec'⟩ := h
    refine ⟨haccepts, rfl, ?_⟩
    have hclosed := (hbec.trans hbec').close fd
    rw [hbec.desk, written_once hfresh rfl] at hclosed
    exact hclosed
  · obtain ⟨e₂, -, hno, -⟩ := h
    exact absurd ⟨_, hfile, by simp, _, hself⟩ hno

end once

end CopyOnWriteAux

end TribiosVfs

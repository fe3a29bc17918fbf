import TribiosVfs.Lemmas.FileOperations
import TribiosVfs.Lemmas.Moving
import TribiosVfs.Theorems.HandleTable

/-!
# A Workspace is an ordinary tree

The operations of a Workspace, run one after the other with no call failing: what its users see is a session on one directory tree
that starts as the Base tree, and the Base tree itself is never changed. In between the rest of the host and of the store may
change, other Workspaces with them.
-/

namespace TribiosVfs

open PublicationAux ViewAux PublishingAux MaterializeAux MovingAux Runs CopyOnWriteAux

/-! ## Sessions -/

/-- The Base tree as an ordinary tree. -/
def Engine.baseTree (e : Engine) (t : Tree) : PlainTree := fun p => (t.get (e.basePath p)).map Node.contents

/-- A Workspace that has just been made: no tombstones, and an empty upper tree. -/
structure Engine.Fresh (e : Engine) (w : World) : Prop where
  made : e = Engine.construct e.workspace e.baseDir e.upperDir w.store
  ready : Ready e w
  tombstones : e.tombstones = []
  empty : ∀ p, p ≠ [] → w.host.tree.get (e.upperPath p) = none

/-- Others change the rest of the host and of the store. -/
structure Elsewhere (e : Engine) (w w' : World) : Prop where
  wf : w'.host.tree.WF
  same : ∀ q, e.workspaceDir <+: q ∨ e.baseDir <+: q → w'.host.tree.get q = w.host.tree.get q
  nextId : w.store.visible.nextId ≤ w'.store.visible.nextId
  env : w'.env = {}
  closed : w'.store.openTx = none

/-- The operations that may be asked for of a Workspace: those of the tree that shows, but a rename only where the Base tree yields. -/
structure Engine.Allows (e : Engine) (t : Tree) (op : EngineOp) : Prop where
  admits : (e.desk t).Admits op
  yields : ∀ fromPath toPath, op = .rename fromPath toPath → e.Yields t (normalizeRelative fromPath) (normalizeRelative toPath)

/-- The runs of a Workspace's operations that ordinary users may ask for, with what each came to; the handle counter, an `int`, does
not run over. -/
inductive Served (e₀ : Engine) (w₀ : World) : List (EngineOp × Except Errno Reply) → Engine → World → Prop where
  | start : Served e₀ w₀ [] e₀ w₀
  | op {log e w} (op : EngineOp) (r : Except Errno Reply) (e' : Engine) (w' : World) : Served e₀ w₀ log e w →
      e.Allows w.host.tree op → (op.run e).run exec w = ((r, e'), w') → e'.nextHandle ≤ kIntMax →
      Served e₀ w₀ (log ++ [(op, r)]) e' w'
  | rest {log e w} (w' : World) : Served e₀ w₀ log e w → Elsewhere e w w' → Served e₀ w₀ log e w'

namespace CopyOnWriteAux

/-! ## Each operation -/

section operations

variable {α : Type} {e : Engine} {w : World} {op : EngineOp}

/-- An operation comes to what it comes to on the tree that shows. -/
def Meets (op : EngineOp) (e : Engine) (w : World) : Prop :=
  op.run.Ends e w
    (fun reply e' w' => (e.desk w.host.tree).Accepts op ∧ (e.desk w.host.tree).Tells op reply ∧
      Becomes e w ((e.desk w.host.tree).after op reply) e' w')
    (fun _ e' w' => (e.desk w.host.tree).Refuses op ∧ Becomes e w (e.desk w.host.tree) e' w')

theorem meets_of_refuses {m : EngineM α} {f : α → Reply} (hrun : op.run = m >>= fun a => pure (f a)) {Q : α → Engine → World → Prop}
    {X : Errno → Engine → World → Prop} (hm : m.Ends e w Q X)
    (hQ : ∀ a e' w', Q a e' w' → (e.desk w.host.tree).Accepts op ∧ (e.desk w.host.tree).Tells op (f a) ∧
      Becomes e w ((e.desk w.host.tree).after op (f a)) e' w')
    (hX : ∀ x e' w', X x e' w' → (e.desk w.host.tree).Refuses op ∧ Becomes e w (e.desk w.host.tree) e' w') : Meets op e w := by
  unfold Meets
  rw [hrun]
  exact EngineM.ends_bind (hm.mono (fun _ _ _ h => h) hX) (fun a e' w' h => EngineM.ends_pure (hQ a e' w' h))

/-- What fails is what the tree does not take. -/
theorem meets_of {m : EngineM α} {f : α → Reply} (hrun : op.run = m >>= fun a => pure (f a)) {Q : α → Engine → World → Prop}
    {X : Errno → Engine → World → Prop} (hm : m.Ends e w Q X)
    (hQ : ∀ a e' w', Q a e' w' → (e.desk w.host.tree).Accepts op ∧ (e.desk w.host.tree).Tells op (f a) ∧
      Becomes e w ((e.desk w.host.tree).after op (f a)) e' w')
    (hX : ∀ x e' w', X x e' w' → ¬(e.desk w.host.tree).Accepts op ∧ Becomes e w (e.desk w.host.tree) e' w') : Meets op e w :=
  meets_of_refuses hrun hm hQ (fun x e' w' h => ⟨Or.inl (hX x e' w' h).1, (hX x e' w' h).2⟩)

/-- A symlink with an empty target cannot be made. -/
theorem symlink_fails {target : Bytes} (ht : cStr target = []) (p : HostPath) (w : World) :
    Ends (Io.call (.symlink target p)) w (fun _ _ => False) (fun _ w' => w' = w) := by
  have hrun : w.host.symlink target p = (.error .ENOENT, w.host) := by rw [Host.symlink, if_pos ht]
  exact ends_host (·.symlink target p) rfl hrun rfl

/-- `chmod` and `utimens` of a file. -/
theorem changeVisible_goes {kind : OperationKind} {r : RelPath} {change : HostPath → Io Unit} (hs : Serves e w) (hk : kind ≠ .rename)
    (ho : Ordinary r) (hc : (e.shape w.host.tree).Clear r) (hl : (e.shape w.host.tree).NoLink r)
    (hnd : e.shape w.host.tree r ≠ some .dir) (hch : ∀ data, Rewrites change data data (fun _ => True)) :
    (changeVisible kind r change).Ends e w
      (fun _ e' w' => (e.shape w.host.tree).IsFile r ∧ Goes e w (e.shape w.host.tree) e' w')
      (fun _ e' w' => ¬(e.shape w.host.tree).IsFile r ∧ Goes e w (e.shape w.host.tree) e' w') := by
  unfold changeVisible
  refine EngineM.ends_bind (find_ends hs ho hc) (fun found e₁ w₁ h₁ => ?_)
  obtain ⟨-, hfound, rfl, rfl⟩ := h₁
  cases hd : e₁.shape w₁.host.tree r with
  | none =>
    rw [hd, Option.map_eq_none_iff] at hfound
    refine EngineM.ends_bind (R := fun _ _ _ => False) (EngineM.ends_refuse (fun h => h (by rw [hfound]; rfl))
      (fun _ => ⟨?_, Goes.refl hs⟩)) (fun _ _ _ h => h.elim)
    rintro ⟨data, hdata⟩
    cases hd.symm.trans hdata
  | some c =>
    cases c with
    | dir => exact absurd hd hnd
    | symlink target => exact absurd hd (hl target)
    | file data =>
      rw [hd] at hfound
      obtain ⟨f, hf, -⟩ := Option.map_eq_some_iff.mp hfound
      refine EngineM.ends_bind (R := fun _ e' w' => e' = e₁ ∧ w' = w₁) (EngineM.ends_refuse (fun _ => ⟨rfl, rfl⟩)
        (fun h => by rw [hf] at h; cases h)) (fun _ e₂ w₂ h₂ => ?_)
      obtain ⟨rfl, rfl⟩ := h₂
      refine (publishAt_changed hs hk ho hc hd (hch data)).mono (fun _ e' w' h => ⟨⟨data, hd⟩, ?_⟩) (fun _ _ _ h => h.elim)
      have hgoes := h.2.1
      rwa [Forest.put_eq_self hd] at hgoes

/-- Every operation that may be asked for comes to what it comes to on the tree that shows. -/
theorem meets (hs : Serves e w) (ha : e.Allows w.host.tree op) : Meets op e w := by
  obtain ⟨⟨hpaths, hargs⟩, hyields⟩ := ha
  have hpath : ∀ path ∈ op.paths, Ordinary (normalizeRelative path) ∧ (e.shape w.host.tree).Clear (normalizeRelative path) :=
    fun path hp => ⟨normalizeRelative_ordinary (hpaths path hp).1, (hpaths path hp).2⟩
  cases op with
  | getattr path =>
    obtain ⟨ho, hc⟩ := hpath path List.mem_cons_self
    refine meets_of (f := .attr) rfl (getattr_goes hs ho hc) (fun attr e' w' h => ⟨?_, h.1, h.2.becomes⟩)
      (fun _ e' w' h => ⟨?_, h.2.becomes⟩)
    · obtain ⟨st, -, -, hst, -⟩ := h.1
      exact Option.isSome_iff_exists.mpr ⟨_, hst⟩
    · intro hsome
      obtain ⟨c, hc'⟩ := Option.isSome_iff_exists.mp hsome
      cases hc'.symm.trans h.1
  | readdir path =>
    obtain ⟨ho, hc⟩ := hpath path List.mem_cons_self
    refine meets_of (f := .entries) rfl (readdir_goes hs ho hc) (fun entries e' w' h => ⟨h.1, ⟨h.2.1.sorted, fun c => ?_⟩,
      h.2.2.becomes⟩) (fun _ e' w' h => ⟨h.1, h.2.becomes⟩)
    have htree : (e.desk w.host.tree).tree = e.shape w.host.tree := rfl
    rw [h.2.1.found c, htree, Engine.shape, Option.map_map, Option.map_map]
    rfl
  | readlink path =>
    obtain ⟨ho, hc⟩ := hpath path List.mem_cons_self
    exact meets_of (f := .data) rfl (readlink_goes hs ho hc) (fun target e' w' h => ⟨⟨target, h.1⟩, h.1, h.2.becomes⟩)
      (fun _ e' w' h => ⟨fun hl => h.1 _ hl.choose_spec, h.2.becomes⟩)
  | readFile path size offset =>
    obtain ⟨ho, hc⟩ := hpath path List.mem_cons_self
    exact meets_of (f := .data) rfl (readFile_becomes hs ho hc hargs.1 hargs.2.1 hargs.2.2) (fun _ _ _ h => h) (fun _ _ _ h => h)
  | writeFile path data offset =>
    obtain ⟨ho, hc⟩ := hpath path List.mem_cons_self
    exact meets_of (f := .size) rfl (writeFile_becomes hs ho hc hargs.1 hargs.2) (fun _ _ _ h => h) (fun _ _ _ h => h)
  | openHandle path flags =>
    obtain ⟨ho, hc⟩ := hpath path List.mem_cons_self
    exact meets_of (f := .handle) rfl (openHandle_becomes flags hs ho hc hargs) (fun _ _ _ h => h) (fun _ _ _ h => h)
  | readHandle fd size offset =>
    refine meets_of_refuses (f := .data) rfl (readHandle_becomes fd hs hargs.1 hargs.2) (fun data e' w' h => ?_) (fun _ e' w' h => ?_)
    · obtain ⟨⟨f, hf, hdata⟩, rfl, rfl⟩ := h
      exact ⟨Option.isSome_iff_exists.mpr ⟨f, hf⟩, ⟨f, hf, hdata⟩, (Goes.refl hs).becomes⟩
    · obtain ⟨hunasked, rfl, rfl⟩ := h
      refine ⟨?_, (Goes.refl hs).becomes⟩
      cases hf : (e'.desk w'.host.tree).file fd with
      | none => exact Or.inl (fun hsome => by rw [Desk.Accepts, hf] at hsome; cases hsome)
      | some f => exact Or.inr ⟨f, hf, hunasked f hf⟩
  | writeHandle fd data offset =>
    exact meets_of (f := .size) rfl (writeHandle_becomes fd data hs hargs.1 hargs.2) (fun _ _ _ h => h) (fun _ _ _ h => h)
  | closeHandle fd =>
    exact meets_of (f := fun _ => .done) rfl (Q := fun _ e' w' => e' = e.close fd ∧ w' = w) (X := fun _ _ _ => False)
      (EngineM.ends_modify ⟨rfl, rfl⟩) (fun _ e' w' h => by
        obtain ⟨rfl, rfl⟩ := h
        exact ⟨trivial, trivial, (Goes.refl hs).becomes.close fd⟩) (fun _ _ _ h => h.elim)
  | create path mode =>
    obtain ⟨ho, hc⟩ := hpath path List.mem_cons_self
    exact meets_of (f := fun _ => .done) rfl (publishNew_goes hs (by decide) ho hc (fun _ _ => prepares_createFile _))
      (fun _ _ _ h => ⟨h.1, trivial, h.2.becomes⟩) (fun _ _ _ h => ⟨h.1, h.2.becomes⟩)
  | mkdir path mode =>
    obtain ⟨ho, hc⟩ := hpath path List.mem_cons_self
    exact meets_of (f := fun _ => .done) rfl (publishNew_goes hs (by decide) ho hc (fun _ _ => prepares_mkdir _))
      (fun _ _ _ h => ⟨h.1, trivial, h.2.becomes⟩) (fun _ _ _ h => ⟨h.1, h.2.becomes⟩)
  | symlink target path =>
    obtain ⟨ho, hc⟩ := hpath path List.mem_cons_self
    by_cases ht : cStr target = []
    · exact meets_of (f := fun _ => .done) rfl (publishNew_fails hs (by decide) ho hc (fun p w₂ => symlink_fails ht p w₂))
        (fun _ _ _ h => h.elim) (fun _ _ _ h => ⟨fun hacc => hacc.1 ht, h.becomes⟩)
    · exact meets_of (f := fun _ => .done) rfl (publishNew_goes hs (by decide) ho hc (fun _ _ => prepares_symlink ht))
        (fun _ _ _ h => ⟨⟨ht, h.1⟩, trivial, h.2.becomes⟩) (fun _ _ _ h => ⟨fun hacc => h.1 hacc.2, h.2.becomes⟩)
  | unlink path =>
    obtain ⟨ho, hc⟩ := hpath path List.mem_cons_self
    exact meets_of (f := fun _ => .done) rfl (unlink_goes hs ho hc) (fun _ _ _ h => ⟨h.1, trivial, h.2.becomes⟩)
      (fun _ _ _ h => ⟨h.1, h.2.becomes⟩)
  | rmdir path =>
    obtain ⟨ho, hc⟩ := hpath path List.mem_cons_self
    exact meets_of (f := fun _ => .done) rfl (rmdir_goes hs ho hc) (fun _ _ _ h => ⟨h.1, trivial, h.2.becomes⟩)
      (fun _ _ _ h => ⟨h.1, h.2.becomes⟩)
  | truncate path size =>
    obtain ⟨ho, hc⟩ := hpath path List.mem_cons_self
    exact meets_of (f := fun _ => .done) rfl (truncate_goes hs ho hc hargs.1 hargs.2)
      (fun _ _ _ h => ⟨h.1, trivial, h.2.becomes⟩) (fun _ _ _ h => ⟨h.1, h.2.becomes⟩)
  | chmod path mode =>
    obtain ⟨ho, hc⟩ := hpath path List.mem_cons_self
    exact meets_of (f := fun _ => .done) rfl (changeVisible_goes hs (by decide) ho hc hargs.1 hargs.2 (rewrites_chmod _))
      (fun _ _ _ h => ⟨h.1, trivial, h.2.becomes⟩) (fun _ _ _ h => ⟨h.1, h.2.becomes⟩)
  | utimens path atime mtime =>
    obtain ⟨ho, hc⟩ := hpath path List.mem_cons_self
    exact meets_of (f := fun _ => .done) rfl (changeVisible_goes hs (by decide) ho hc hargs.1 hargs.2 (rewrites_utimes _ _))
      (fun _ _ _ h => ⟨h.1, trivial, h.2.becomes⟩) (fun _ _ _ h => ⟨h.1, h.2.becomes⟩)
  | fsyncHandle fd dataOnly =>
    refine meets_of (f := fun _ => .done) rfl (fsyncHandle_goes fd dataOnly hs hargs) (fun _ e' w' h => ?_) (fun _ e' w' h => ?_)
    · obtain ⟨hsome, rfl, rfl⟩ := h
      exact ⟨hsome, trivial, (Goes.refl hs).becomes⟩
    · obtain ⟨hnone, rfl, rfl⟩ := h
      exact ⟨fun hsome => (by rw [Desk.Accepts, hnone] at hsome; cases hsome), (Goes.refl hs).becomes⟩
  | fsyncPath path dataOnly directory =>
    obtain ⟨ho, hc⟩ := hpath path List.mem_cons_self
    refine meets_of (f := fun _ => .done) rfl (fsyncPath_goes hs ho hc dataOnly directory hargs) (fun _ e' w' h => ?_)
      (fun _ e' w' h => ?_)
    · obtain ⟨hacc, rfl, rfl⟩ := h
      exact ⟨hacc, trivial, (Goes.refl hs).becomes⟩
    · obtain ⟨hno, rfl, rfl⟩ := h
      exact ⟨hno, (Goes.refl hs).becomes⟩
  | rename fromPath toPath =>
    obtain ⟨hos, hcs⟩ := hpath fromPath List.mem_cons_self
    obtain ⟨hot, hct⟩ := hpath toPath (List.mem_cons_of_mem _ List.mem_cons_self)
    exact meets_of (f := fun _ => .done) rfl (rename_goes hs hos hot hcs hct (hyields fromPath toPath rfl) hargs)
      (fun _ _ _ h => ⟨h.1, trivial, h.2.becomes⟩) (fun _ _ _ h => ⟨h.1, h.2.becomes⟩)

end operations

/-! ## A run -/

section run

variable {e : Engine} {w w' : World}

/-- A Workspace that has just been made serves, and is the Base tree. -/
theorem fresh_serves (h : e.Fresh w) : Serves e w ∧ e.desk w.host.tree = ⟨e.baseTree w.host.tree, []⟩ := by
  have hh := h.ready.home
  have hvisible : ∀ p, ¬e.Hides p := by
    intro p
    rw [not_hides, h.tombstones, baseIsVisible, List.all_eq_true]
    intro a _
    simp
  have hhandles : e.handles = [] := by
    rw [h.made]
    rfl
  have hcache : e.directoryEntriesCache = [] := by
    rw [h.made]
    rfl
  obtain ⟨n, hn, hnd⟩ := (isDirAt_iff hh.placed.upper_ne).mp hh.upper
  obtain ⟨m, hm, hmd⟩ := (isDirAt_iff hh.placed.base_ne).mp hh.base
  have hroot : w.host.tree.get (e.upperPath []) = some n := by rw [Engine.upperPath, List.append_nil, hn]
  have hbase : w.host.tree.get (e.basePath []) = some m := by rw [Engine.basePath, List.append_nil, hm]
  have hupper : ∀ p, p ≠ [] → e.upper w.host.tree p = none := by
    intro p hp
    rw [Engine.upper, h.empty p hp]
    rfl
  refine ⟨⟨h.ready, ?_, ?_, ?_⟩, ?_⟩
  · intro p a b ha _ hb
    by_cases hp : p = []
    · subst hp
      rw [Engine.upper, hroot, Option.map_some, Option.some.injEq] at ha
      rw [Engine.base, hbase, Option.map_some, Option.some.injEq] at hb
      rw [← ha, ← hb, fileType_lasting, fileType_lasting, Node.fileType, Node.fileType, Node.contents_of_isDir hnd,
        Node.contents_of_isDir hmd]
    · rw [hupper p hp] at ha
      cases ha
  · intro x hx
    rw [hcache] at hx
    cases hx
  · rw [hhandles]
    exact ⟨fun _ hentry => (List.not_mem_nil hentry).elim, List.nodup_nil⟩
  · have hshape : e.shape w.host.tree = e.baseTree w.host.tree := by
      funext p
      rw [Engine.shape, Engine.baseTree, Engine.view]
      by_cases hp : p = []
      · subst hp
        rw [hbase, Forest.overlay_upper (v := n.lasting) (by rw [Engine.upper, hroot]; rfl), Option.map_some, Option.map_some,
          n.lasting_contents, Node.contents_of_isDir hnd, Node.contents_of_isDir hmd]
      · rw [Forest.overlay_lower (hupper p hp) (hvisible p), Engine.base, Option.map_map]
        congr 1
        funext k
        exact k.lasting_contents
    rw [Engine.desk, hshape, hhandles]
    rfl

/-- What others do is not seen. -/
theorem elsewhere_unseen (hs : Serves e w) (h : Elsewhere e w w') : Serves e w' ∧ e.desk w'.host.tree = e.desk w.host.tree := by
  have hh := hs.ready.home
  have hp := hh.placed
  have hupper : ∀ p, w'.host.tree.get (e.upperPath p) = w.host.tree.get (e.upperPath p) :=
    fun p => h.same _ (Or.inl (hp.own_upper (List.prefix_append _ _)))
  have hbase : ∀ p, w'.host.tree.get (e.basePath p) = w.host.tree.get (e.basePath p) :=
    fun p => h.same _ (Or.inr (List.prefix_append _ _))
  have hview : e.view w'.host.tree = e.view w.host.tree := by
    funext p
    rw [Engine.view, Engine.view, Forest.overlay, Forest.overlay, Engine.upper, Engine.upper, Engine.base, Engine.base, hupper, hbase]
  have hdir : ∀ q, q ≠ [] → (e.workspaceDir <+: q ∨ e.baseDir <+: q) → isDirAt w.host.tree q = true →
      isDirAt w'.host.tree q = true := by
    intro q hq hin hd
    obtain ⟨n, hn, hnd⟩ := (isDirAt_iff hq).mp hd
    exact (isDirAt_iff hq).mpr ⟨n, by rw [h.same q hin, hn], hnd⟩
  have hhome : Home e w' := by
    refine ⟨hp, h.wf, hdir _ hp.upper_ne (Or.inl (hp.own_upper (List.prefix_refl _))) hh.upper,
      hdir _ hp.base_ne (Or.inr (List.prefix_refl _)) hh.base, fun n hn => ?_, fun id hid => ?_⟩
    · rw [h.same _ (Or.inl (Engine.Placed.own_recovery (List.prefix_refl _)))] at hn
      exact hh.recovery n hn
    · rw [h.same _ (Or.inl (Engine.Placed.own_recovery (Engine.Placed.recovery_stage id)))]
      exact hh.fresh id (h.nextId.trans hid)
  refine ⟨⟨⟨hhome, h.env, h.closed⟩, fun p a b ha hv hb => ?_, fun x hx => ?_, hs.handles⟩, ?_⟩
  · rw [Engine.upper, hupper] at ha
    rw [Engine.base, hbase] at hb
    exact hs.agrees p a b ha hv hb
  · rw [hview]
    exact hs.current x hx
  · exact congrArg (fun v : Forest Name Node => Desk.mk (fun p => (v p).map Node.contents) (e.desk w.host.tree).files) hview

/-- Between its operations a Workspace serves, it is a session on the Base tree to its users, and the Base tree is as it was. -/
structure InSession (e₀ : Engine) (w₀ : World) (log : List (EngineOp × Except Errno Reply)) (e : Engine) (w : World) : Prop where
  serves : Serves e w
  session : Desk.Session (e₀.baseTree w₀.host.tree) log (e.desk w.host.tree)
  base : ∀ p, w.host.tree.get (e₀.basePath p) = w₀.host.tree.get (e₀.basePath p)
  upperDir : e.upperDir = e₀.upperDir
  baseDir : e.baseDir = e₀.baseDir

/-- What an operation has come to. -/
theorem ran_becomes {op : EngineOp} {r : Except Errno Reply} {e' : Engine} (hs : Serves e w)
    (ha : e.Allows w.host.tree op) (hrun : (op.run e).run exec w = ((r, e'), w')) :
    ∃ s', Becomes e w s' e' w' ∧ ∀ {t₀ log}, Desk.Session t₀ log (e.desk w.host.tree) → Desk.Session t₀ (log ++ [(op, r)]) s' := by
  have hmeets := meets hs ha
  unfold Meets EngineM.Ends Prog.Alone at hmeets
  rw [hrun] at hmeets
  cases r with
  | ok reply =>
    obtain ⟨hacc, htells, hnext⟩ := hmeets
    exact ⟨_, hnext, fun hsession => hsession.done op reply hacc htells⟩
  | error x =>
    obtain ⟨hno, hnext⟩ := hmeets
    exact ⟨_, hnext, fun hsession => hsession.failed op x hno⟩

theorem served {e₀ : Engine} {w₀ : World} {log : List (EngineOp × Except Errno Reply)} (h₀ : e₀.Fresh w₀)
    (h : Served e₀ w₀ log e w) : InSession e₀ w₀ log e w := by
  induction h with
  | start =>
    obtain ⟨hs, hdesk⟩ := fresh_serves h₀
    exact ⟨hs, hdesk ▸ .start, fun _ => rfl, rfl, rfl⟩
  | op op r e' w' _ hadm hrun _ ih =>
    obtain ⟨s', hnext, hsession⟩ := ran_becomes ih.serves hadm hrun
    refine ⟨hnext.serves, hnext.desk ▸ hsession ih.session, fun p => ?_, hnext.upperDir.trans ih.upperDir,
      hnext.baseDir.trans ih.baseDir⟩
    have hbase := hnext.kept.get_base ih.serves.ready.home.placed (fun _ hq => hq) p
    rw [Engine.basePath, ih.baseDir] at hbase
    exact hbase.trans (ih.base p)
  | rest w' _ helse ih =>
    obtain ⟨hs, hdesk⟩ := elsewhere_unseen ih.serves helse
    refine ⟨hs, hdesk ▸ ih.session, fun p => ?_, ih.upperDir, ih.baseDir⟩
    have hbase := helse.same (_ ++ p) (Or.inr (List.prefix_append _ p))
    rw [ih.baseDir] at hbase
    exact hbase.trans (ih.base p)

end run

end CopyOnWriteAux

namespace CopyOnWriteAux

/-- No symlink is in the way of what shows. -/
theorem unbarred_of_shows {e : Engine} {h : Host} (hl : Layered e h.tree) {p : RelPath} (hs : (e.view h.tree p).isSome = true) :
    Unbarred (e.view h.tree) p := by
  intro a hap hne k hk
  obtain ⟨m, hm, hmd⟩ := (view_grounded hl).ancestor hs hap hne
  rw [hk, Option.some.injEq] at hm
  exact Node.isLnk_of_isDir (hm ▸ hmd)

/-- Sorted listings that show the same at every name are equal. -/
theorem sorted_ext : ∀ {as bs : List DirEntry}, SortedEntries as → SortedEntries bs →
    (∀ c, as.find? (fun x => x.name = c) = bs.find? (fun x => x.name = c)) → as = bs := by
  intro as
  induction as with
  | nil =>
    intro bs _ _ h
    cases bs with
    | nil => rfl
    | cons b bs =>
      have hb := h b.name
      rw [List.find?_nil, List.find?_cons_of_pos (by simp)] at hb
      cases hb
  | cons a as ih =>
    intro bs ha hb h
    cases bs with
    | nil =>
      have hself := h a.name
      rw [List.find?_nil, List.find?_cons_of_pos (by simp)] at hself
      cases hself
    | cons b bs =>
      obtain ⟨halt, has⟩ := List.pairwise_cons.mp ha
      obtain ⟨hblt, hbs⟩ := List.pairwise_cons.mp hb
      -- the heads are the least of both, so each lies in the other's listing only at its head
      have hab : a = b := by
        have h₁ := h a.name
        have h₂ := h b.name
        rw [List.find?_cons_of_pos (by simp)] at h₁
        rw [List.find?_cons_of_pos (l := bs) (by simp)] at h₂
        have hina : b ∈ a :: as := List.mem_of_find?_eq_some h₂
        have hinb : a ∈ b :: bs := List.mem_of_find?_eq_some h₁.symm
        rcases List.mem_cons.mp hina with heq | hin
        · exact heq.symm
        · rcases List.mem_cons.mp hinb with heq | hin'
          · exact heq
          · exact absurd (List.lt_trans (halt b hin) (hblt a hin')) (List.lt_irrefl _)
      subst hab
      refine congrArg (a :: ·) (ih has hbs (fun c => ?_))
      have hc := h c
      by_cases hac : a.name = c
      · have hout : ∀ {l : List DirEntry}, (∀ x ∈ l, a.name < x.name) → l.find? (fun x => x.name = c) = none := by
          intro l hl
          rw [List.find?_eq_none]
          intro x hx hxc
          have hlt := hl x hx
          rw [of_decide_eq_true hxc, hac] at hlt
          exact List.lt_irrefl _ hlt
        rw [hout halt, hout hblt]
      · rwa [List.find?_cons_of_neg (by simpa using hac), List.find?_cons_of_neg (by simpa using hac)] at hc

end CopyOnWriteAux

namespace CopyOnWriteWitness

/-- An empty upper tree at `/w/u`, with an empty recovery directory beside it, over a Base tree at `/b` with a file `a`, and a directory
`d` with a file `f`. -/
def world : World where
  host := {
    tree := ⟨[([[119]], ⟨.dir, ⟨3, 493, 0, 0, 0⟩⟩), ([[119], [117]], ⟨.dir, ⟨4, 493, 0, 0, 0⟩⟩),
      ([[119], recoveryName], ⟨.dir, ⟨10, 493, 0, 0, 0⟩⟩), ([[98]], ⟨.dir, ⟨5, 493, 0, 0, 0⟩⟩),
      ([[98], [97]], ⟨.file [104], ⟨6, 420, 0, 0, 0⟩⟩), ([[98], [100]], ⟨.dir, ⟨7, 493, 0, 0, 0⟩⟩),
      ([[98], [100], [102]], ⟨.file [105], ⟨8, 420, 0, 0, 0⟩⟩)]⟩
    nextIno := 11, now := 5, umask := 18 }
  store := { committed := {} }

def engine : Engine := .construct [119] [[98]] [[119], [117]] world.store

theorem home : Home engine world := by
  refine ⟨⟨by decide, by decide, by decide, by decide, by decide, by decide, by decide⟩, Tree.wf_of_entries (by decide), by decide,
    by decide, fun n hn => ?_, fun id _ => ?_⟩
  · have hrec : world.host.tree.get engine.recoveryDir = some ⟨.dir, ⟨10, 493, 0, 0, 0⟩⟩ := by decide
    rw [hrec, Option.some.injEq] at hn
    rw [← hn]
    rfl
  · simp [engine, Engine.construct, Engine.stagePath, Engine.recoveryDir, parentPath, world, PathMap.get, PathMap.lookupIn]

theorem fresh : engine.Fresh world := by
  refine ⟨rfl, ⟨home, rfl, rfl⟩, rfl, fun p hp => ?_⟩
  simp [engine, Engine.construct, Engine.upperPath, world, PathMap.get, PathMap.lookupIn, hp]

theorem clear {t : PlainTree} (hroot : t [] = some .dir) {p : Name} : t.Clear [p] := by
  intro a ha hne target
  have hnil : a = [] := by
    rcases List.prefix_cons_iff.mp ha with h | ⟨b, rfl, hb⟩
    · exact h
    · rw [List.prefix_nil.mp hb] at hne
      exact absurd rfl hne
  rw [hnil, hroot]
  simp

/-- One operation. -/
def ran (op : EngineOp) : (Except Errno Reply × Engine) × World := (op.run engine).run exec world

/-- Where no layer holds a symlink, none shows. -/
theorem no_symlink {e : Engine} {t : Tree} (hall : ∀ x ∈ t.entries, x.2.isLnk = false) (p : RelPath) (target : Bytes) :
    e.shape t p ≠ some (.symlink target) := by
  have hplain : ∀ q n, t.get q = some n → n.contents ≠ .symlink target := by
    intro q n hn hc
    have hlink := hall _ (PathMap.mem_entries_of_get hn)
    rw [Node.isLnk, hc] at hlink
    cases hlink
  intro h
  rw [Engine.shape, view_sight, Option.map_map] at h
  obtain ⟨n, hn, hc⟩ := Option.map_eq_some_iff.mp h
  rw [Function.comp_apply, n.lasting_contents] at hc
  rcases Option.or_eq_some_iff.mp hn with hu | ⟨-, hb⟩
  · exact hplain _ n hu hc
  · split at hb
    · cases hb
    · exact hplain _ n hb hc

theorem plain : ∀ x ∈ world.host.tree.entries, x.2.isLnk = false := by decide

/-- The file `a` takes the place of `d/f`. -/
theorem allows_rename : engine.Allows world.host.tree (.rename [97] [100, 47, 102]) := by
  refine ⟨⟨fun path hp => ⟨?_, fun a _ _ => no_symlink plain a⟩, fun s target h => absurd h (no_symlink plain _ target)⟩, fun _ _ h => ?_⟩
  · have hall : ∀ x ∈ (EngineOp.rename [97] [100, 47, 102]).paths, (0 : UInt8) ∉ x := by decide
    exact hall path hp
  · cases h
    have hbase : world.host.tree.get (engine.basePath (normalizeRelative [100, 47, 102])) = some ⟨.file [105], ⟨8, 420, 0, 0, 0⟩⟩ := by
      decide +kernel
    have hview : engine.view world.host.tree (normalizeRelative [97]) = some ⟨.file [104], ⟨6, 420, 0, 0, 0⟩⟩ := by decide +kernel
    refine Or.inr ⟨fun s hs => Option.map_eq_none_iff.mpr ?_, fun n m hn hm => ?_⟩
    · rw [Engine.basePath, ← List.append_assoc]
      refine home.wf.rooted.get_under_leaf (by simp [Engine.basePath, engine, Engine.construct]) hbase ?_ (List.prefix_append _ _) ?_
      · decide
      · exact fun hc => hs (List.self_eq_append_right.mp hc)
    · rw [Engine.base, hbase, Option.map_some, Option.some.injEq] at hn
      rw [hview, Option.some.injEq] at hm
      rw [← hn, ← hm]
      rfl

/-- The root is listed, then `d`, and then a file `x` is made in the root. -/
def listed : (Except Errno Reply × Engine) × World := ran (.readdir [])
def listedBoth : (Except Errno Reply × Engine) × World := ((EngineOp.readdir [100]).run listed.1.2).run exec listed.2
def made : (Except Errno Reply × Engine) × World := ((EngineOp.create [120] 420).run listedBoth.1.2).run exec listedBoth.2

/-- The memory of listings does not show. -/
theorem desk_listed : listed.1.2.desk listed.2.host.tree = engine.desk world.host.tree ∧
    listedBoth.1.2.desk listedBoth.2.host.tree = engine.desk world.host.tree := ⟨rfl, rfl⟩

theorem clear_shape (path : Bytes) : (engine.desk world.host.tree).tree.Clear (normalizeRelative path) :=
  fun a _ _ => no_symlink plain a

theorem served_listed : Served engine world [(.readdir [], listed.1.1)] listed.1.2 listed.2 := by
  refine .op (.readdir []) _ _ _ .start ⟨⟨fun path hp => ?_, trivial⟩, fun _ _ h => nomatch h⟩ rfl (by decide +kernel)
  rw [EngineOp.paths, List.mem_singleton] at hp
  exact ⟨hp ▸ by decide, clear_shape path⟩

theorem served_listedBoth : Served engine world ([(.readdir [], listed.1.1)] ++ [(.readdir [100], listedBoth.1.1)]) listedBoth.1.2
    listedBoth.2 := by
  refine .op (.readdir [100]) _ _ _ served_listed ⟨?_, fun _ _ h => nomatch h⟩ rfl (by decide +kernel)
  rw [desk_listed.1]
  refine ⟨fun path hp => ?_, trivial⟩
  rw [EngineOp.paths, List.mem_singleton] at hp
  exact ⟨hp ▸ by decide, clear_shape path⟩

theorem served_made : Served engine world
    ([(.readdir [], listed.1.1)] ++ [(.readdir [100], listedBoth.1.1)] ++ [(.create [120] 420, made.1.1)]) made.1.2 made.2 := by
  refine .op (.create [120] 420) _ _ _ served_listedBoth ⟨?_, fun _ _ h => nomatch h⟩ rfl (by decide +kernel)
  rw [desk_listed.2]
  refine ⟨fun path hp => ?_, trivial⟩
  rw [EngineOp.paths, List.mem_singleton] at hp
  exact ⟨hp ▸ by decide, clear_shape path⟩

end CopyOnWriteWitness

end TribiosVfs

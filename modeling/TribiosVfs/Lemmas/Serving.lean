import TribiosVfs.Lemmas.Stages
import TribiosVfs.PlainTree

/-!
# An engine that serves

What holds of an engine between its operations (`Serves`), and what an operation may do to it: it goes on serving, the view has
become another tree, and the Base tree is as it was (`Goes`). The steps the operations are made of each keep it.
-/

namespace TribiosVfs

open PublicationAux ViewAux PublishingAux

/-- What a listing says of an entry. -/
def Node.facet (n : Node) : Nat × Nat := (n.attrs.ino, n.fileType)

/-- Every listing kept in memory is that of a directory that shows. -/
def Current (e : Engine) (t : Tree) : Prop := ∀ x ∈ e.directoryEntriesCache,
  Ordinary x.1 ∧ (∃ n, e.view t x.1 = some n ∧ n.isDir = true) ∧ e.Lists (e.view t) x.1 x.2

/-- The contents of what shows. -/
def Engine.shape (e : Engine) (t : Tree) : PlainTree := fun p => (e.view t p).map Node.contents

/-- The bytes of a file. -/
def Node.bytes (n : Node) : Bytes := match n.contents with
  | .file data => data
  | _ => []

/-- What a handle is to its user. -/
def OpenHandle.file (handle : OpenHandle) : OpenFile :=
  ⟨handle.relative, handle.flags.access, (handle.backing.map (·.file.bytes)).getD []⟩

/-- What an engine is to its users. -/
def Engine.desk (e : Engine) (t : Tree) : Desk := ⟨e.shape t, e.handles.map (fun entry => (entry.1, entry.2.file))⟩

/-- A handle was opened on a file at a path, and has its descriptor, which can be read from unless only writing was asked for. -/
structure OpenHandle.Sound (handle : OpenHandle) : Prop where
  ordinary : Ordinary handle.relative
  backed : ∃ d data, handle.backing = some d ∧ d.file.contents = .file data
  readable : ∀ d, handle.backing = some d → d.access = .wronly → handle.flags.access = .wronly

/-- The handles of a table are sound, and each has an id of its own below the next one. -/
structure SoundTable (handles : List (Int × OpenHandle)) (next : Int) : Prop where
  entries : ∀ entry ∈ handles, entry.1 < next ∧ entry.2.Sound
  distinct : (handles.map (·.1)).Nodup

/-- What holds of an engine between its operations. -/
structure Serves (e : Engine) (w : World) : Prop where
  ready : Ready e w
  agrees : e.Agrees w.host.tree
  current : Current e w.host.tree
  handles : SoundTable e.handles e.nextHandle

/-- An engine has gone on serving: it is another tree to its users, with other files open on it, and nothing has changed outside of
its Workspace's directory. -/
structure Becomes (e : Engine) (w : World) (s' : Desk) (e' : Engine) (w' : World) : Prop where
  serves : Serves e' w'
  desk : e'.desk w'.host.tree = s'
  kept : Kept e (e.workspaceDir <+: ·) w w'
  upperDir : e'.upperDir = e.upperDir
  baseDir : e'.baseDir = e.baseDir

/-- An engine has gone on serving, with the same handles: a tree shows, and nothing has changed outside of its Workspace's
directory. -/
structure Goes (e : Engine) (w : World) (t' : PlainTree) (e' : Engine) (w' : World) : Prop where
  serves : Serves e' w'
  shape : e'.shape w'.host.tree = t'
  kept : Kept e (e.workspaceDir <+: ·) w w'
  upperDir : e'.upperDir = e.upperDir
  baseDir : e'.baseDir = e.baseDir
  handles : e'.handles = e.handles

section gone

variable {e e' e'' : Engine} {w w' w'' : World} {t t' : PlainTree} {s s' : Desk}

theorem Kept.trans_own (h : Kept e (e.workspaceDir <+: ·) w w') (h' : Kept e' (e'.workspaceDir <+: ·) w' w'')
    (hu : e'.upperDir = e.upperDir) : Kept e (e.workspaceDir <+: ·) w w'' := by
  have hdir : e'.workspaceDir = e.workspaceDir := congrArg parentPath hu
  rw [hdir] at h'
  exact h.trans (h'.of_dir hdir.symm)

/-- Nothing has changed outside of the Workspace's directory. -/
theorem Kept.outside (h : Kept e (e.workspaceDir <+: ·) w w') {q : HostPath} (hq : ¬e.workspaceDir <+: q) :
    w'.host.tree.get q = w.host.tree.get q := by
  have hlook := h.look q hq
  rwa [Tree.look, Tree.look, if_neg hq, if_neg hq] at hlook

namespace Becomes

theorem trans (h : Becomes e w s e' w') (h' : Becomes e' w' s' e'' w'') : Becomes e w s' e'' w'' where
  serves := h'.serves
  desk := h'.desk
  kept := h.kept.trans_own h'.kept h.upperDir
  upperDir := h'.upperDir.trans h.upperDir
  baseDir := h'.baseDir.trans h.baseDir

end Becomes

namespace Goes

theorem refl (h : Serves e w) : Goes e w (e.shape w.host.tree) e w := ⟨h, rfl, Kept.refl h.ready.home.wf, rfl, rfl, rfl⟩

theorem trans (h : Goes e w t e' w') (h' : Goes e' w' t' e'' w'') : Goes e w t' e'' w'' where
  serves := h'.serves
  shape := h'.shape
  kept := h.kept.trans_own h'.kept h.upperDir
  upperDir := h'.upperDir.trans h.upperDir
  baseDir := h'.baseDir.trans h.baseDir
  handles := h'.handles.trans h.handles

theorem becomes (h : Goes e w t e' w') : Becomes e w ⟨t, (e.desk w.host.tree).files⟩ e' w' :=
  ⟨h.serves, by rw [Engine.desk, h.shape, h.handles]; rfl, h.kept, h.upperDir, h.baseDir⟩

end Goes

end gone

section current

variable {e e' : Engine} {t t' : Tree} {R : RelPath → Prop}

theorem facet_eq {n m : Node} (h : n.facet = m.facet) : n.attrs.ino = m.attrs.ino ∧ n.fileType = m.fileType :=
  ⟨congrArg Prod.fst h, congrArg Prod.snd h⟩

/-- Listings stay current where those of everything that has changed are forgotten. -/
theorem Current.step (h : Current e t) (hsalt : e'.inodeSalt = e.inodeSalt) (hf : Forgets R e e')
    (hR : ∀ q, (e'.view t' q).map Node.facet ≠ (e.view t q).map Node.facet → R q) : Current e' t' := by
  intro x hx
  obtain ⟨hmem, hkeep⟩ := hf x hx
  obtain ⟨ho, ⟨n, hn, hd⟩, hl⟩ := h x hmem
  have hself : (e'.view t' x.1).map Node.facet = (e.view t x.1).map Node.facet := by
    by_contra hc
    exact (hkeep ho.1 _ (hR _ hc)).2 (List.prefix_refl _)
  have hchild : ∀ c, (e'.view t' (x.1 ++ [c])).map Node.facet = (e.view t (x.1 ++ [c])).map Node.facet := by
    intro c
    by_contra hc
    exact (hkeep ho.1 _ (hR _ hc)).1 (by rw [parentOf, List.dropLast_concat])
  refine ⟨ho, ?_, hl.sorted, fun c => ?_⟩
  · rw [hn] at hself
    obtain ⟨m, hm, hfacet⟩ := Option.map_eq_some_iff.mp hself
    exact ⟨m, hm, (isDir_of_fileType (facet_eq hfacet).2).trans hd⟩
  · have hc := hchild c
    rw [hl.found c]
    cases hv : e.view t (x.1 ++ [c]) with
    | none =>
      rw [hv, Option.map_none, Option.map_eq_none_iff] at hc
      rw [hc, Option.map_none, Option.map_none]
    | some n =>
      rw [hv] at hc
      obtain ⟨m, hm, hfacet⟩ := Option.map_eq_some_iff.mp hc
      obtain ⟨hino, htype⟩ := facet_eq hfacet
      rw [hm, Option.map_some, Option.map_some, Engine.entry, Engine.entry, Engine.workspaceInodeFor, Engine.workspaceInodeFor,
        hino, htype, hsalt]

end current

section steps

variable {e e₁ e' : Engine} {w w₁ w' : World} {r : RelPath} {sub : Forest Name Node}

/-- Where the view is unchanged up to the times of directories, so is everything. -/
theorem shape_of_view (h : e'.view w'.host.tree = e.view w.host.tree) : e'.shape w'.host.tree = e.shape w.host.tree := by
  unfold Engine.shape
  rw [h]

theorem Carried.shape (h : Carried e w r e' w') : e'.shape w'.host.tree = e.shape w.host.tree := by
  have hm := h.memory
  have hview : e'.view w'.host.tree = e.view w'.host.tree := by
    rw [hm]
    rfl
  funext p
  unfold Engine.shape
  rw [hview]
  exact h.view_contents p

/-- What has changed in the view are directories copied up. -/
theorem Carried.view_changed (h : Carried e w r e' w') {q : RelPath} (hq : e'.view w'.host.tree q ≠ e.view w.host.tree q) :
    e.upper w.host.tree q = none ∧ e.upper w'.host.tree q ≠ none := by
  have hm := h.memory
  have hview : e'.view w'.host.tree = e.view w'.host.tree := by
    rw [hm]
    rfl
  rcases h.upper_or q with he | ⟨-, -, hnone, hsome⟩
  · refine absurd ?_ hq
    rw [hview, Engine.view, Engine.view, Forest.overlay, Forest.overlay, he, h.base_eq]
  · exact ⟨hnone, hsome⟩

/-- Copying up directories. -/
theorem goes_carried (hs : Serves e w) (h : Carried e w r e' w') : Goes e w (e.shape w.host.tree) e' w' := by
  have hm := h.memory
  refine ⟨⟨h.ready.of_dirs (by rw [hm]) (by rw [hm]), ?_, ?_, ?_⟩, h.shape, h.own, by rw [hm], by rw [hm], by rw [hm]⟩
  · rw [hm]
    exact h.agrees hs.agrees
  · refine hs.current.step (by rw [hm]) h.forgets (fun q hq => h.view_changed (fun heq => hq (by rw [heq])))
  · rw [hm]
    exact hs.handles

/-- An entry of the view is put in the place of what was there. -/
theorem goes_put (hs : Serves e w) (hcar : Carried e w r e₁ w₁) (hne : r ≠ []) {c : Contents} (hleaf : Leaf c sub)
    (hland : Landed e r sub w₁ w') (hkind : ∀ c', e.shape w.host.tree r = some c' → c.fileType = c'.fileType)
    (hdir : e.shape w.host.tree r = some .dir → ∀ s, s ≠ [] → e.shape w.host.tree (r ++ s) = none) (ho : Ordinary r) :
    Goes e w ((e.shape w.host.tree).put r (some c)) (e₁.forget r) w' := by
  have hm := hcar.memory
  obtain ⟨n, hn, hnc⟩ := hleaf.entry
  have hview₁ : e₁.view w₁.host.tree = e.view w₁.host.tree := by
    rw [hm]
    rfl
  have hl₁ := hcar.ready.home.layered (hcar.agrees hs.agrees)
  have hshape₁ : ∀ p, (e.view w₁.host.tree p).map Node.contents = e.shape w.host.tree p := hcar.view_contents
  -- nothing shows beneath the entry, so there is nothing beneath it in the upper tree
  have hnone : ∀ s, s ≠ [] → e.view w₁.host.tree (r ++ s) = none := by
    intro s hs'
    by_cases hd : e.shape w.host.tree r = some .dir
    · rw [← Option.map_eq_none_iff (f := Node.contents), hshape₁]
      exact hdir hd s hs'
    · refine (view_grounded hl₁).none_beneath (fun k hk hkd => hd ?_) (List.prefix_append r s) (by simpa using hs')
      rw [← hshape₁, hk, Option.map_some, Node.contents_of_isDir hkd]
  have hbeneath : ∀ s, s ≠ [] → e.upper w₁.host.tree (r ++ s) = none := fun s hs' => (Forest.overlay_eq_none.mp (hnone s hs')).1
  have hview := leaf_view hland hn hleaf.alone hbeneath
  have hview' : (e₁.forget r).view w'.host.tree = (e.view w₁.host.tree).put r (some n.lasting) := by
    rw [← hview, hm]
    rfl
  refine ⟨⟨hland.ready.of_dirs (by rw [hm]; rfl) (by rw [hm]; rfl), ?_, ?_, ?_⟩, ?_, hcar.own.trans hland.own,
    by rw [hm]; rfl, by rw [hm]; rfl, by rw [hm]; rfl⟩
  · have ha := leaf_agrees hland hl₁.agrees hn hleaf.alone hbeneath (fun m hm' => ?_)
    · rw [hm]
      exact ha
    · have hk := hkind m.contents (by rw [← hshape₁, hm', Option.map_some])
      rw [← hnc] at hk
      exact hk
  · have hforgets := hcar.forgets.trans (forget_forgets e₁ ho.1 hne)
    refine hs.current.step (by rw [hm]; rfl) hforgets (fun q hq => ?_)
    by_cases hrq : r <+: q
    · exact Or.inr hrq
    · refine Or.inl (hcar.view_changed (fun heq => hq ?_))
      rw [hview', Forest.put_of_ne _ (fun h => hrq (by subst h; exact List.prefix_refl _)), ← hview₁, heq]
  · rw [hm]
    exact hs.handles
  · funext p
    rw [Engine.shape, hview']
    by_cases hp : p = r
    · rw [hp, Forest.put_self, Forest.put_self, Option.map_some, n.lasting_contents, hnc]
    · rw [Forest.put_of_ne _ hp, Forest.put_of_ne _ hp, hshape₁]

/-- An entry of the view is taken away. -/
theorem goes_cut (hs : Serves e w) (hne : r ≠ []) (ho : Ordinary r) (h : Removed e w r w')
    (hbeneath : ∀ s, s ≠ [] → e.shape w.host.tree (r ++ s) = none) :
    Goes e w ((e.shape w.host.tree).put r none) (e.bury w.host.tree r) w' := by
  have hnone : ∀ s, s ≠ [] → e.view w.host.tree (r ++ s) = none := fun s hs' => Option.map_eq_none_iff.mp (hbeneath s hs')
  have hview := removed_view h hne hnone
  refine ⟨⟨h.ready.of_dirs rfl rfl, removed_agrees h hs.agrees hne hnone, ?_, hs.handles⟩, ?_, h.own, rfl, rfl, rfl⟩
  · refine hs.current.step rfl (forget_forgets e ho.1 hne) (fun q hq => ?_)
    by_contra hrq
    refine hq ?_
    rw [hview, Forest.put_of_ne _ (fun hc => hrq (by subst hc; exact List.prefix_refl _))]
  · funext p
    rw [Engine.shape, hview]
    by_cases hp : p = r
    · rw [hp, Forest.put_self, Forest.put_self, Option.map_none]
    · rw [Forest.put_of_ne _ hp, Forest.put_of_ne _ hp]
      rfl

/-- A stage that could not be prepared leaves nothing behind. -/
theorem goes_unstaged (hs : Serves e w) (hk : Kept e (e.recoveryDir <+: ·) w w') (hr : Ready e w') (hne : r ≠ []) (ho : Ordinary r) :
    Goes e w (e.shape w.host.tree) (e.forget r) w' := by
  obtain ⟨hl, hview⟩ := hk.layered hr.home hs.agrees
  have hview' : (e.forget r).view w'.host.tree = e.view w.host.tree := hview
  refine ⟨⟨hr.of_dirs rfl rfl, hl.agrees, ?_, hs.handles⟩, shape_of_view hview',
    hk.mono (fun q hq => Engine.Placed.own_recovery hq), rfl, rfl, rfl⟩
  exact hs.current.step rfl (forget_forgets e ho.1 hne) (fun q hq => absurd (by rw [hview']) hq)

/-- The listing of a directory that shows is kept in memory. -/
theorem goes_cached (hs : Serves e w) (ho : Ordinary r) (hd : ∃ n, e.view w.host.tree r = some n ∧ n.isDir = true)
    {entries : List DirEntry} (hl : e.Lists (e.view w.host.tree) r entries) :
    Goes e w (e.shape w.host.tree) { e with directoryEntriesCache := e.directoryEntriesCache ++ [(r, entries)] } w := by
  refine ⟨⟨hs.ready.of_dirs rfl rfl, hs.agrees, fun x hx => ?_, hs.handles⟩, rfl, Kept.refl hs.ready.home.wf, rfl, rfl, rfl⟩
  rcases List.mem_append.mp hx with hx | hx
  · obtain ⟨hox, hdx, hlx⟩ := hs.current x hx
    exact ⟨hox, hdx, hlx.sorted, hlx.found⟩
  · rw [List.mem_singleton] at hx
    subst hx
    exact ⟨ho, hd, hl.sorted, hl.found⟩

/-- The handles have changed. -/
theorem Serves.of_handles (hs : Serves e w) (handles : List (Int × OpenHandle)) (next : Int)
    (h : SoundTable handles next) : Serves { e with handles := handles, nextHandle := next } w :=
  ⟨hs.ready.of_dirs rfl rfl, hs.agrees, fun x hx => by
    obtain ⟨hox, hdx, hlx⟩ := hs.current x hx
    exact ⟨hox, hdx, hlx.sorted, hlx.found⟩, h⟩

end steps

/-! ## Handles -/

section handles

variable {e : Engine} {w : World} {t : Tree}

/-- A handle is looked up by its id. -/
theorem desk_file (e : Engine) (t : Tree) (fd : Int) : (e.desk t).file fd = (e.findHandle fd).map OpenHandle.file := by
  unfold Desk.file Engine.desk Engine.findHandle
  rw [List.find?_map, Option.map_map, Option.map_map]
  rfl

theorem findHandle_sound (hs : Serves e w) {fd : Int} {handle : OpenHandle} (h : e.findHandle fd = some handle) : handle.Sound := by
  obtain ⟨entry, hentry, rfl⟩ := Option.map_eq_some_iff.mp h
  exact (hs.handles.entries entry (List.mem_of_find?_eq_some hentry)).2

/-- The entry of an id is the one that is found. -/
theorem entry_of_find (hs : Serves e w) {fd : Int} {handle : OpenHandle} (h : e.findHandle fd = some handle)
    {entry : Int × OpenHandle} (hentry : entry ∈ e.handles) (hfd : entry.1 = fd) : entry.2 = handle := by
  obtain ⟨found, hfound, rfl⟩ := Option.map_eq_some_iff.mp h
  have hid : found.1 = fd := by simpa using List.find?_some hfound
  rw [List.inj_on_of_nodup_map hs.handles.distinct hentry (List.mem_of_find?_eq_some hfound) (hfd.trans hid.symm)]

/-- No open file has the next id. -/
theorem next_fresh (hs : Serves e w) : ∀ entry ∈ (e.desk t).files, entry.1 ≠ e.nextHandle := by
  intro entry hentry
  obtain ⟨x, hx, rfl⟩ := List.mem_map.mp hentry
  exact (hs.handles.entries x hx).1.ne

/-- `emplace` of a new id. -/
theorem addHandle_eq (hs : Serves e w) (handle : OpenHandle) :
    e.addHandle handle = { e with handles := e.handles ++ [(e.nextHandle, handle)], nextHandle := e.nextHandle + 1 } := by
  unfold Engine.addHandle
  rw [if_neg]
  rw [List.any_eq_true]
  rintro ⟨x, hx, heq⟩
  exact (hs.handles.entries x hx).1.ne (of_decide_eq_true heq)

theorem serves_addHandle (hs : Serves e w) {handle : OpenHandle} (h : handle.Sound) : Serves (e.addHandle handle) w := by
  rw [addHandle_eq hs]
  refine hs.of_handles _ _ ⟨fun entry hentry => ?_, ?_⟩
  · rcases List.mem_append.mp hentry with hentry | hentry
    · exact ⟨(hs.handles.entries entry hentry).1.trans (Int.lt_succ _), (hs.handles.entries entry hentry).2⟩
    · rw [List.mem_singleton] at hentry
      subst hentry
      exact ⟨Int.lt_succ _, h⟩
  · rw [List.map_append, List.map_singleton, ← List.concat_eq_append, List.nodup_concat]
    refine ⟨fun hmem => ?_, hs.handles.distinct⟩
    obtain ⟨x, hx, heq⟩ := List.mem_map.mp hmem
    exact (hs.handles.entries x hx).1.ne heq

theorem serves_setBacking (hs : Serves e w) (fd : Int) {d : Descriptor} {data : Bytes} (hd : d.file.contents = .file data)
    {handle : OpenHandle} (hf : e.findHandle fd = some handle) (ha : handle.flags.access = d.access) :
    Serves (e.setBacking fd (some d)) w := by
  refine hs.of_handles _ e.nextHandle ⟨fun entry hentry => ?_, ?_⟩
  · obtain ⟨x, hx, rfl⟩ := List.mem_map.mp hentry
    obtain ⟨hlt, hsound⟩ := hs.handles.entries x hx
    split
    · rename_i hfd
      refine ⟨hlt, hsound.ordinary, ⟨d, data, rfl, hd⟩, fun d' hd' hw => ?_⟩
      rw [Option.some.injEq] at hd'
      rw [entry_of_find hs hf hx hfd, ha, hd', hw]
    · exact ⟨hlt, hsound⟩
  · have hids : (e.handles.map (fun entry => if entry.1 = fd then (entry.1, { entry.2 with backing := some d }) else entry)).map
        (·.1) = e.handles.map (·.1) := by
      rw [List.map_map]
      refine List.map_congr_left (fun entry _ => ?_)
      dsimp only [Function.comp]
      split <;> rfl
    rw [hids]
    exact hs.handles.distinct

/-- What `close_handle` leaves. -/
def Engine.close (e : Engine) (fd : Int) : Engine := { e with handles := e.handles.filter (fun entry => entry.1 ≠ fd) }

theorem serves_close (hs : Serves e w) (fd : Int) : Serves (e.close fd) w :=
  hs.of_handles _ e.nextHandle ⟨fun entry hentry => hs.handles.entries entry (List.mem_filter.mp hentry).1,
    hs.handles.distinct.sublist (List.filter_sublist.map _)⟩

theorem desk_addHandle (hs : Serves e w) (handle : OpenHandle) :
    (e.addHandle handle).desk t = ⟨e.shape t, (e.desk t).files ++ [(e.nextHandle, handle.file)]⟩ := by
  rw [addHandle_eq hs, Engine.desk, Engine.desk, List.map_append]
  rfl

theorem desk_setBacking (fd : Int) {d : Descriptor} {data : Bytes} (hd : d.file.contents = .file data) :
    (e.setBacking fd (some d)).desk t = ⟨e.shape t, (e.desk t).files.map (fun entry =>
      if entry.1 = fd then (entry.1, { entry.2 with bytes := data }) else entry)⟩ := by
  have hdata : d.file.bytes = data := by rw [Node.bytes, hd]
  have hfiles : (e.setBacking fd (some d)).handles.map (fun entry => (entry.1, entry.2.file)) =
      (e.handles.map (fun entry => (entry.1, entry.2.file))).map (fun entry =>
        if entry.1 = fd then (entry.1, { entry.2 with bytes := data }) else entry) := by
    rw [Engine.setBacking, List.map_map, List.map_map]
    refine List.map_congr_left (fun entry _ => ?_)
    by_cases hfd : entry.1 = fd
    · simp [hfd, OpenHandle.file, hdata]
    · simp [hfd]
  exact congrArg (fun files => Desk.mk (e.shape t) files) hfiles

theorem desk_close (fd : Int) : (e.close fd).desk t = { e.desk t with files := (e.desk t).files.filter (fun entry => entry.1 ≠ fd) } := by
  have hfiles : (e.close fd).handles.map (fun entry => (entry.1, entry.2.file)) =
      (e.handles.map (fun entry => (entry.1, entry.2.file))).filter (fun entry => entry.1 ≠ fd) := by
    rw [Engine.close, List.filter_map]
    rfl
  exact congrArg (fun files => Desk.mk (e.shape t) files) hfiles

/-- A handle is closed. -/
theorem Becomes.close {e' : Engine} {w' : World} {s : Desk} (h : Becomes e w s e' w') (fd : Int) :
    Becomes e w { s with files := s.files.filter (fun entry => entry.1 ≠ fd) } (e'.close fd) w' :=
  ⟨serves_close h.serves fd, by rw [desk_close, h.desk], h.kept, h.upperDir, h.baseDir⟩

end handles

end TribiosVfs

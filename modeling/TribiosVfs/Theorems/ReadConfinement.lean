import TribiosVfs.Lemmas.Visible
import TribiosVfs.ControlServer
import TribiosVfs.Operations

/-!
# What a query can observe

Two hosts that hold the same Base tree and the same upper tree answer a query alike, as long as the kernel's walks for it look at
nothing but entries of the two layers and the directories above them, and end in the layers. A symlink that leads out of the
layers breaks this: the walk follows it.
-/

namespace TribiosVfs

/-- The entries of the two layers. -/
def Engine.inLayers (e : Engine) (q : HostPath) : Bool := e.baseDir.isPrefixOf q || e.upperDir.isPrefixOf q

/-- The directories above the layers, and the layers' own. -/
def Engine.onTheWay (e : Engine) (q : HostPath) : Bool := q.isPrefixOf e.baseDir || q.isPrefixOf e.upperDir

/-- A walk that looks at entries of the layers and the directories above them, and ends in the layers or nowhere. -/
def Engine.confined (e : Engine) (h : Host) (follow : Bool) (p : HostPath) : Bool :=
  (h.looks follow p).all (fun q => e.inLayers q || e.onTheWay q) &&
    match h.resolve follow p with
    | .ok q => e.inLayers q
    | .error _ => true

/-- The walks of a lookup are confined: the upper one, and the Base one where the upper one finds nothing. -/
def Engine.lookupConfined (e : Engine) (h : Host) (relative : RelPath) : Bool :=
  e.confined h false (e.upperPath relative) &&
    ((h.lstat (e.upperPath relative)).1.toOption.isSome || !baseIsVisible e.tombstones relative ||
      e.confined h false (e.basePath relative))

/-- The walks of a merged listing are confined. -/
def Engine.listingConfined (e : Engine) (h : Host) (relative : RelPath) : Bool :=
  (!baseIsVisible e.tombstones relative || e.confined h true (e.basePath relative)) &&
    e.confined h true (e.upperPath relative)

/-- A query of a client: a request of the control server, or an open for reading and a read. -/
inductive Query where
  | request (verb : FilesystemVerb) (path : Bytes)
  | openRead (path : Bytes) (excl : Bool) (size offset : Nat)
  deriving DecidableEq, Repr

/-- `open_handle` for reading, and `read_handle`. -/
def openRead (path : Bytes) (excl : Bool) (size offset : Nat) : EngineM Bytes := do
  let fd ← openHandle path { excl := excl }
  readHandle fd size offset

/-- The engine operations a query runs; `none` for a verb that is no query. -/
def Query.run : Query → Option (EngineM QueryReply)
  | .request verb path => dispatchFilesystemQuery verb path
  | .openRead path excl size offset => some do return .data (← TribiosVfs.openRead path excl size offset)

/-- The walks of a query that opens the file at a path. -/
def Engine.openConfined (e : Engine) (h : Host) (relative : RelPath) : Bool :=
  e.lookupConfined h relative &&
    match e.lookup h relative with
    | none => true
    | some (layer, st) => st.isDir || e.confined h true (e.layerPath layer relative)

/-- The walks a query makes are confined. -/
def Query.confined (e : Engine) (h : Host) : Query → Bool
  | .request .ls path => (e.directoryEntriesCache.any (fun cached => cached.1 = normalizeRelative path)) ||
      e.lookupConfined h (normalizeRelative path) &&
        match e.lookup h (normalizeRelative path) with
        | none => true
        | some (_, st) => !st.isDir || e.listingConfined h (normalizeRelative path)
  | .request .read path => e.openConfined h (normalizeRelative path)
  | .request _ path => e.lookupConfined h (normalizeRelative path)
  | .openRead path _ _ _ => normalizeRelative path = [] || e.openConfined h (normalizeRelative path)

/-- Two well-formed hosts with the same Base tree and the same upper tree, each in a directory of its own. -/
structure SameLayers (e : Engine) (h h' : Host) : Prop where
  wf : h.tree.WF
  wf' : h'.tree.WF
  baseDir : isDirAt h.tree e.baseDir = true ∧ isDirAt h'.tree e.baseDir = true
  upperDir : isDirAt h.tree e.upperDir = true ∧ isDirAt h'.tree e.upperDir = true
  base : ∀ p, h'.tree.get (e.basePath p) = h.tree.get (e.basePath p)
  upper : ∀ p, h'.tree.get (e.upperPath p) = h.tree.get (e.upperPath p)

namespace ReadAux

theorem sameZone {e : Engine} {h h' : Host} (hs : SameLayers e h h') :
    SameZone (fun q => e.inLayers q = true) (fun q => e.onTheWay q = true) h.tree h'.tree where
  same q hq := by
    rw [Engine.inLayers, Bool.or_eq_true, List.isPrefixOf_iff_prefix, List.isPrefixOf_iff_prefix] at hq
    rcases hq with ⟨p, rfl⟩ | ⟨p, rfl⟩
    · exact hs.base p
    · exact hs.upper p
  dirs q hq := by
    rw [Engine.onTheWay, Bool.or_eq_true, List.isPrefixOf_iff_prefix, List.isPrefixOf_iff_prefix] at hq
    rcases hq with hq | hq
    · exact ⟨hs.wf.isDirAt_initial hs.baseDir.1 hq, hs.wf'.isDirAt_initial hs.baseDir.2 hq⟩
    · exact ⟨hs.wf.isDirAt_initial hs.upperDir.1 hq, hs.wf'.isDirAt_initial hs.upperDir.2 hq⟩
  start := by simp [Engine.onTheWay]
  up q hq := by
    have climb : ∀ d : HostPath, d <+: q ∨ q <+: d → d <+: q.dropLast ∨ q.dropLast <+: d := by
      rintro d (⟨s, rfl⟩ | hd)
      · rcases List.eq_nil_or_concat s with rfl | ⟨s, n, rfl⟩
        · exact Or.inr (by rw [List.append_nil]; exact List.dropLast_prefix d)
        · rw [List.concat_eq_append, ← List.append_assoc, List.dropLast_concat]
          exact Or.inl (List.prefix_append _ _)
      · exact Or.inr ((List.dropLast_prefix q).trans hd)
    simp only [Engine.inLayers, Engine.onTheWay, Bool.or_eq_true, List.isPrefixOf_iff_prefix] at hq ⊢
    have hb := climb e.baseDir
    have hu := climb e.upperDir
    tauto

theorem inLayers_child {e : Engine} (q : HostPath) (c : Name) (h : e.inLayers q = true) : e.inLayers (q ++ [c]) = true := by
  simp only [Engine.inLayers, Bool.or_eq_true, List.isPrefixOf_iff_prefix] at h ⊢
  exact h.imp (fun h => h.trans (List.prefix_append _ _)) (fun h => h.trans (List.prefix_append _ _))

theorem confined_iff {e : Engine} {h : Host} {follow : Bool} {p : HostPath} (hc : e.confined h follow p = true) :
    (∀ q ∈ h.looks follow p, e.inLayers q = true ∨ e.onTheWay q = true) ∧
      ∀ q, h.resolve follow p = .ok q → e.inLayers q = true := by
  rw [Engine.confined, Bool.and_eq_true, List.all_eq_true] at hc
  refine ⟨fun q hq => by simpa using hc.1 q hq, fun q hq => ?_⟩
  simpa only [hq] using hc.2

open Runs

/-! ### The same answers -/

section answers

variable {e : Engine} {h h' : Host} (hs : SameLayers e h h') {relative : RelPath}

include hs

theorem lstat_confined {p : HostPath} (hc : e.confined h false p = true) : (h'.lstat p).1 = (h.lstat p).1 :=
  lstat_same (sameZone hs) (confined_iff hc).1 (confined_iff hc).2 rfl

theorem lookup_confined (hc : e.lookupConfined h relative = true) : e.lookup h' relative = e.lookup h relative := by
  rw [Engine.lookupConfined, Bool.and_eq_true] at hc
  rw [Engine.lookup, Engine.lookup, lstat_confined hs hc.1]
  cases hup : (h.lstat (e.upperPath relative)).1.toOption with
  | some st => rfl
  | none =>
    rw [hup] at hc
    dsimp only
    by_cases hv : baseIsVisible e.tombstones relative = true
    · have hb : e.confined h false (e.basePath relative) = true := by simpa [hv] using hc.2
      rw [if_pos hv, if_pos hv, lstat_confined hs hb]
    · rw [if_neg hv, if_neg hv]

theorem mergeOpened_confined {p : HostPath} {filterTombstones : Bool} (hc : e.confined h true p = true)
    (entries : List DirEntry) :
    mergeOpened e relative filterTombstones entries (h'.openDirectory p).1 =
      mergeOpened e relative filterTombstones entries (h.openDirectory p).1 := by
  obtain ⟨hl, hz⟩ := confined_iff hc
  rcases openDirectory_perm (sameZone hs) hl hz inLayers_child with ⟨x, hx, hx'⟩ | ⟨q, hx, hx', hp⟩
  · rw [hx, hx']
  · rw [hx, hx']
    refine mergeListing_perm e relative filterTombstones hp (fun x hx y hy hn => ?_) entries
    rw [mem_listing] at hx hy
    rw [hn, hy, Option.some.injEq] at hx
    exact Prod.ext hn hx.symm

theorem merged_confined (hc : e.listingConfined h relative = true) : merged e h' relative = merged e h relative := by
  rw [Engine.listingConfined, Bool.and_eq_true] at hc
  rw [merged, merged, mergeOpened_confined hs hc.2]
  by_cases hv : baseIsVisible e.tombstones relative = true
  · have hb : e.confined h true (e.basePath relative) = true := by simpa [hv] using hc.1
    rw [if_pos hv, if_pos hv, mergeOpened_confined hs hb]
  · rw [if_neg hv, if_neg hv]

end answers

/-! ### Runs of queries -/

theorem run_createForOpen (w : World) (relative : RelPath) (excl : Bool) (e : Engine) :
    (createForOpen relative { excl := excl } e).run exec w =
      (((match e.lookup w.host relative with
        | none => .error .ENOENT
        | some (layer, st) => if st.isDir = true then .error .EISDIR else .ok layer), e), w) := by
  rw [createForOpen, run_engine_bind, run_engine_reads, run_find]
  cases e.lookup w.host relative with
  | none =>
    dsimp only
    rw [run_engine_bind, EngineM.refuse, run_engine_reads, run_refuse]
    rfl
  | some found =>
    dsimp only
    rw [run_engine_bind, EngineM.refuse, run_engine_reads, run_refuse]
    by_cases hd : found.2.isDir = true
    · rw [if_pos hd, if_pos hd]
    · rw [if_neg hd, if_neg hd]
      dsimp only
      rw [run_engine_bind, EngineM.refuse, run_engine_reads, run_refuse]
      rfl

/-- Opening a file for reading. -/
theorem run_openHandle (w : World) (path : Bytes) (excl : Bool) (e : Engine) :
    (openHandle path { excl := excl } e).run exec w =
      ((if normalizeRelative path = [] then (.error .EISDIR, e) else
        match e.lookup w.host (normalizeRelative path) with
        | none => (.error .ENOENT, e)
        | some (layer, st) => if st.isDir = true then (.error .EISDIR, e) else
          match (w.host.openFile (e.layerPath layer (normalizeRelative path)) .rdonly).1 with
          | .error x => (.error x, e)
          | .ok file => (.ok e.nextHandle, e.addHandle ⟨some file, { excl := excl }, normalizeRelative path⟩)), w) := by
  rw [openHandle, run_engine_bind, EngineM.refuse, run_engine_reads, run_refuse]
  by_cases hp : normalizeRelative path = []
  · rw [if_pos hp, if_pos hp]
  · rw [if_neg hp, if_neg hp]
    dsimp only
    rw [run_engine_bind, run_createForOpen]
    cases e.lookup w.host (normalizeRelative path) with
    | none => rfl
    | some found =>
      dsimp only
      by_cases hd : found.2.isDir = true
      · rw [if_pos hd, if_pos hd]
      · rw [if_neg hd, if_neg hd]
        dsimp only
        have htrunc : truncateForOpen (normalizeRelative path) { excl := excl } found.1 = pure found.1 := rfl
        rw [run_engine_bind, htrunc]
        refine (run_engine_bind w (EngineM.reads _) _ e).trans ?_
        rw [run_engine_reads, run_call w _ rfl]
        have hread : ¬(found.1 = Layer.base ∧ ({ excl := excl } : OpenFlags).forWriting = true) := by
          rintro ⟨-, hw⟩
          cases hw
        rw [if_neg hread]
        have hopen : (exec (.openFile (e.layerPath found.1 (normalizeRelative path)) .rdonly) w).1 =
            (w.host.openFile (e.layerPath found.1 (normalizeRelative path)) .rdonly).1 := rfl
        rw [hopen]
        cases (w.host.openFile (e.layerPath found.1 (normalizeRelative path)) .rdonly).1 <;> rfl

/-- A read through a handle does not depend on the host. -/
theorem run_readHandle (w w' : World) (fd : Int) (size offset : Nat) (e : Engine) :
    (readHandle fd size offset e).run exec w' = (((readHandle fd size offset e).run exec w).1, w') := by
  rw [readHandle, run_engine_reads, run_engine_reads]
  dsimp only
  cases e.findHandle fd <;> rfl

/-- A computation that ends alike in two worlds and leaves them. -/
def Alike {α : Type} (m : EngineM α) (e : Engine) (w w' : World) : Prop :=
  ∃ r, (m e).run exec w = (r, w) ∧ (m e).run exec w' = (r, w')

theorem alike_pure {α : Type} (a : α) (e : Engine) (w w' : World) : Alike (pure a) e w w' := ⟨_, rfl, rfl⟩

theorem alike_bind {α β : Type} {m : EngineM β} {f : β → EngineM α} {e : Engine} {w w' : World} (hm : Alike m e w w')
    (hf : ∀ b e₁, (m e).run exec w = ((.ok b, e₁), w) → Alike (f b) e₁ w w') : Alike (m >>= f) e w w' := by
  obtain ⟨⟨r, e₁⟩, hr, hr'⟩ := hm
  unfold Alike
  rw [run_engine_bind, run_engine_bind, hr, hr']
  cases r with
  | ok b => exact hf b e₁ hr
  | error x => exact ⟨_, rfl, rfl⟩

section queries

variable {e : Engine} {w w' : World} (hs : SameLayers e w.host w'.host)

include hs

theorem getattr_confined {path : Bytes} (hc : e.lookupConfined w.host (normalizeRelative path) = true) :
    Alike (getattr path) e w w' :=
  ⟨_, run_getattr w path e, by rw [run_getattr, lookup_confined hs hc]⟩

theorem readdir_confined {path : Bytes} (hc : (Query.request .ls path).confined e w.host = true) :
    Alike (readdir path) e w w' := by
  unfold Alike readdir
  simp only
  cases hf : e.directoryEntriesCache.find? (fun cached => cached.1 = normalizeRelative path) with
  | some cached => exact ⟨_, rfl, rfl⟩
  | none =>
    have hnone : e.directoryEntriesCache.any (fun cached => cached.1 = normalizeRelative path) = false := by
      rw [List.any_eq_false]
      exact fun x hx => by simpa using List.find?_eq_none.mp hf x hx
    rw [Query.confined, hnone, Bool.false_or, Bool.and_eq_true] at hc
    have hcompute : Alike (EngineM.reads (computeDirectoryEntries (normalizeRelative path))) e w w' := by
      unfold Alike
      rw [run_engine_reads, run_engine_reads, run_compute, run_compute, lookup_confined hs hc.1]
      cases hl : e.lookup w.host (normalizeRelative path) with
      | none => exact ⟨_, rfl, rfl⟩
      | some found =>
        rw [hl] at hc
        cases hd : found.2.isDir with
        | false => exact ⟨_, rfl, by simp [hd]⟩
        | true =>
          have hlist : e.listingConfined w.host (normalizeRelative path) = true := by simpa [hd] using hc.2
          simp only [hd, Bool.true_eq_false, if_false]
          rw [merged_confined hs hlist]
          exact ⟨_, rfl, rfl⟩
    exact alike_bind hcompute (fun out e₁ _ => ⟨_, rfl, rfl⟩)

theorem readlink_confined {path : Bytes} (hc : e.lookupConfined w.host (normalizeRelative path) = true) :
    Alike (readlink path) e w w' := by
  unfold Alike
  rw [readlink, run_engine_reads, run_engine_reads, run_bind, run_bind, run_find, run_find, lookup_confined hs hc]
  cases hl : e.lookup w.host (normalizeRelative path) with
  | none => exact ⟨_, rfl, rfl⟩
  | some found =>
    obtain ⟨layer, st⟩ := found
    dsimp only
    rw [run_bind, run_bind, run_refuse, run_refuse]
    by_cases hk : st.isLnk = false
    · rw [if_pos hk]
      exact ⟨_, rfl, rfl⟩
    · rw [if_neg hk]
      have hconf : e.confined w.host false (e.layerPath layer (normalizeRelative path)) = true := by
        rw [Engine.lookupConfined, Bool.and_eq_true] at hc
        rw [Engine.lookup] at hl
        cases hup : (w.host.lstat (e.upperPath (normalizeRelative path))).1.toOption with
        | some st' =>
          rw [hup] at hl
          cases hl
          exact hc.1
        | none =>
          rw [hup] at hl hc
          dsimp only at hl
          split at hl
          · rename_i hv
            obtain ⟨n, -, hn⟩ := Option.map_eq_some_iff.mp hl
            cases hn
            have hb : e.confined w.host false (e.basePath (normalizeRelative path)) = true := by simpa [hv] using hc.2
            exact hb
          · cases hl
      have hlink : (w'.host.readSymlink (e.layerPath layer (normalizeRelative path))).1 =
          (w.host.readSymlink (e.layerPath layer (normalizeRelative path))).1 :=
        readSymlink_same (sameZone hs) (confined_iff hconf).1 (confined_iff hconf).2 rfl
      have hrun : ∀ v : World, ((Io.call (.readSymlink (e.layerPath layer (normalizeRelative path)))).orFail Errno.EIO : Io Bytes).run exec v =
          ((v.host.readSymlink (e.layerPath layer (normalizeRelative path))).1.mapError (fun _ => Errno.EIO), v) := by
        intro v
        have hv : (exec (.readSymlink (e.layerPath layer (normalizeRelative path))) v).2 = v := exec_reads rfl v
        refine (Prog.run_bind exec _ _ v).trans ?_
        rw [run_call v _ rfl]
        change (Fallible.handle _ (v.host.readSymlink (e.layerPath layer (normalizeRelative path))).1).run exec v = _
        cases (v.host.readSymlink (e.layerPath layer (normalizeRelative path))).1 <;> rfl
      dsimp only
      rw [hrun, hrun, hlink]
      exact ⟨_, rfl, rfl⟩

theorem openHandle_confined {path : Bytes} (excl : Bool)
    (hc : normalizeRelative path = [] ∨ e.openConfined w.host (normalizeRelative path) = true) :
    Alike (openHandle path { excl := excl }) e w w' := by
  unfold Alike
  rw [run_openHandle, run_openHandle]
  by_cases hp : normalizeRelative path = []
  · rw [if_pos hp, if_pos hp]
    exact ⟨_, rfl, rfl⟩
  · have hopen := hc.resolve_left hp
    rw [Engine.openConfined, Bool.and_eq_true] at hopen
    rw [if_neg hp, if_neg hp, lookup_confined hs hopen.1]
    cases hl : e.lookup w.host (normalizeRelative path) with
    | none => exact ⟨_, rfl, rfl⟩
    | some found =>
      rw [hl] at hopen
      cases hd : found.2.isDir with
      | true => exact ⟨_, rfl, by simp [hd]⟩
      | false =>
        have hconf : e.confined w.host true (e.layerPath found.1 (normalizeRelative path)) = true := by simpa [hd] using hopen.2
        simp only [hd, Bool.false_eq_true, if_false]
        rw [openFile_same (sameZone hs) (confined_iff hconf).1 (confined_iff hconf).2 .rdonly rfl]
        exact ⟨_, rfl, rfl⟩

end queries

/-- A read through a handle, which is then closed. -/
theorem alike_withHandle (fd : Int) (size offset : Nat) (e : Engine) (w w' : World) :
    Alike (withHandle fd (readHandle fd size offset)) e w w' := by
  have hrun : ∀ v : World, ((readHandle fd size offset).attempt e).run exec v =
      (((.ok ((readHandle fd size offset e).run exec w).1.1, ((readHandle fd size offset e).run exec w).1.2)), v) := by
    intro v
    refine (Prog.run_bind exec _ _ v).trans ?_
    rw [run_readHandle w v]
    rfl
  exact alike_bind ⟨_, hrun w, hrun w'⟩ (fun _ _ _ => ⟨_, rfl, rfl⟩)

/-- What a query is answered, in the two worlds. -/
theorem query_confined {e : Engine} {w w' : World} (hs : SameLayers e w.host w'.host) (q : Query)
    (hc : q.confined e w.host = true) (m : EngineM QueryReply) (hm : q.run = some m) : Alike m e w w' := by
  cases q with
  | openRead path excl size offset =>
    cases hm
    have hopen : normalizeRelative path = [] ∨ e.openConfined w.host (normalizeRelative path) = true := by
      simpa [Query.confined] using hc
    refine alike_bind (alike_bind (openHandle_confined hs _ hopen) (fun fd e₁ _ => ?_)) (fun _ _ _ => alike_pure _ _ _ _)
    exact ⟨_, run_readHandle w w fd size offset e₁, run_readHandle w w' fd size offset e₁⟩
  | request verb path =>
    cases verb with
    | stat =>
      cases hm
      exact alike_bind (getattr_confined hs hc) (fun _ _ _ => alike_pure _ _ _ _)
    | ls =>
      cases hm
      exact alike_bind (readdir_confined hs hc) (fun _ _ _ => alike_pure _ _ _ _)
    | readlink =>
      cases hm
      exact alike_bind (readlink_confined hs hc) (fun _ _ _ => alike_pure _ _ _ _)
    | read =>
      cases hm
      have hopen : e.openConfined w.host (normalizeRelative path) = true := hc
      have hlook : e.lookupConfined w.host (normalizeRelative path) = true := by
        rw [Engine.openConfined, Bool.and_eq_true] at hopen
        exact hopen.1
      refine alike_bind (getattr_confined hs hlook) (fun attributes e₁ hrun => ?_)
      have he : e₁ = e := by
        rw [run_getattr] at hrun
        simp only [Prod.mk.injEq] at hrun
        exact hrun.1.2.symm
      subst he
      refine alike_bind ?_ (fun _ _ _ => alike_pure _ _ _ _)
      exact alike_bind (openHandle_confined hs false (Or.inr hopen)) (fun fd e₂ _ => alike_withHandle fd _ _ e₂ w w')
    | write | create | mkdir | rm | rmdir | mv | symlink | chmod | truncate | utimens | fsync | fsyncdir => cases hm

end ReadAux

/-- A query whose walks are confined is answered alike in every host with the same two layers: the same reply or error, and the
same memory afterwards. -/
theorem read_confinement (e : Engine) (w w' : World) (hs : SameLayers e w.host w'.host) (q : Query)
    (hc : q.confined e w.host = true) (m : EngineM QueryReply) (hm : q.run = some m) :
    ((m e).run exec w').1 = ((m e).run exec w).1 := by
  obtain ⟨r, hr, hr'⟩ := ReadAux.query_confined hs q hc m hm
  rw [hr, hr']

/-! ## A symlink that leads out -/

namespace ReadWitness

def attrs : Attributes := ⟨1, 493, 0, 0, 0⟩

/-- The Base tree at `/b` holds a file `f` and a symlink `l` to `/o`; the upper tree at `/u` is empty. -/
def layers : List (HostPath × Node) :=
  [([[98]], ⟨.dir, attrs⟩), ([[117]], ⟨.dir, attrs⟩), ([[98], [102]], ⟨.file [1], attrs⟩),
    ([[98], [108]], ⟨.symlink [47, 111], attrs⟩), ([[111]], ⟨.dir, attrs⟩)]

/-- `/o` holds nothing, or a file `x`. -/
def world (outside : List (HostPath × Node)) : World :=
  { host := { tree := ⟨layers ++ outside⟩, nextIno := 9, now := 0, umask := 18 }, store := { committed := {} } }

def without : World := world []
def within : World := world [([[111], [120]], ⟨.file [2], attrs⟩)]

def engine : Engine := .construct [87] [[98]] [[117]] without.store

theorem without_wf : without.host.tree.WF := Tree.wf_of_entries (by decide)
theorem within_wf : within.host.tree.WF := Tree.wf_of_entries (by decide)

theorem sameLayers : SameLayers engine without.host within.host := by
  refine ⟨without_wf, within_wf, by decide, by decide, fun p => ?_, fun p => ?_⟩
  · simp [engine, Engine.construct, Engine.basePath, within, without, world, layers, PathMap.get, PathMap.lookupIn]
  · simp [engine, Engine.construct, Engine.upperPath, within, without, world, layers, PathMap.get, PathMap.lookupIn]

/-- `stat("l/x")` looks at `/o/x`: the two hosts hold the same layers and answer differently. -/
theorem stat_leaks : SameLayers engine without.host within.host ∧
    ∃ m, (Query.request .stat [108, 47, 120]).run = some m ∧
      ((m engine).run exec within).1 ≠ ((m engine).run exec without).1 := by
  refine ⟨sameLayers, _, rfl, fun h => ?_⟩
  exact absurd (congrArg (fun r => r.1.toOption.isSome) h) (by decide +kernel)

/-- `stat("f")` stays in the layers. -/
theorem stat_confined : ∃ m, (Query.request .stat [102]).run = some m ∧
    ((m engine).run exec within).1 = ((m engine).run exec without).1 :=
  ⟨_, rfl, read_confinement engine without within sameLayers (.request .stat [102]) (by decide) _ rfl⟩

end ReadWitness

end TribiosVfs

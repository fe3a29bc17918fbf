import TribiosVfs.Lib.Forest
import TribiosVfs.Lemmas.Edits
import TribiosVfs.Lemmas.Homes
import TribiosVfs.Lemmas.Visible

/-!
# The view of a Workspace

The upper tree laid over the Base tree, without what the tombstones hide. Where the layers agree on the kind of what they share,
lookups and listings are read off the view, at every path that no symlink stands in the way of.
-/

namespace TribiosVfs

open Runs

/-- The entries of the upper tree. -/
def Engine.upper (e : Engine) (t : Tree) : Forest Name Node := fun p => (t.get (e.upperPath p)).map Node.lasting

/-- The entries of the Base tree. -/
def Engine.base (e : Engine) (t : Tree) : Forest Name Node := fun p => (t.get (e.basePath p)).map Node.lasting

/-- A tombstone lies on the path or on an ancestor. -/
def Engine.Hides (e : Engine) (p : RelPath) : Prop := baseIsVisible e.tombstones p = false

instance Engine.decidableHides (e : Engine) : DecidablePred e.Hides :=
  fun p => inferInstanceAs (Decidable (baseIsVisible e.tombstones p = false))

/-- The tree that shows. -/
def Engine.view (e : Engine) (t : Tree) : Forest Name Node := Forest.overlay (e.upper t) (e.base t) e.Hides

/-- The tree that shows, with the times of its directories. -/
def Engine.sight (e : Engine) (t : Tree) : Forest Name Node :=
  Forest.overlay (fun p => t.get (e.upperPath p)) (fun p => t.get (e.basePath p)) e.Hides

theorem view_sight (e : Engine) (t : Tree) (p : RelPath) : e.view t p = (e.sight t p).map Node.lasting := by
  unfold Engine.view Engine.sight Forest.overlay Engine.upper Engine.base
  cases hu : t.get (e.upperPath p) <;> by_cases hv : e.Hides p <;> simp [hu, hv]

/-- The layers agree on the kind of what they share. -/
def Engine.Agrees (e : Engine) (t : Tree) : Prop := Forest.Agree (e.upper t) (e.base t) e.Hides Node.fileType

/-- The layers have their directories, and agree on the kind of what they share. -/
structure Layered (e : Engine) (t : Tree) : Prop where
  placed : e.Placed
  wf : t.WF
  upper : isDirAt t e.upperDir = true
  base : isDirAt t e.baseDir = true
  agrees : e.Agrees t

theorem Home.layered {e : Engine} {w : World} (hh : Home e w) (ha : e.Agrees w.host.tree) : Layered e w.host.tree :=
  ⟨hh.placed, hh.wf, hh.upper, hh.base, ha⟩

/-- No symlink stands in the way of a path. -/
def Unbarred (v : Forest Name Node) (p : RelPath) : Prop := ∀ a, a <+: p → a ≠ p → ∀ n, v a = some n → n.isLnk = false

/-- The entry of a listing. -/
def Engine.entry (e : Engine) (c : Name) (n : Node) : DirEntry := ⟨c, e.workspaceInodeFor n, n.fileType⟩

/-- A listing of what lies directly beneath a path. -/
structure Engine.Lists (e : Engine) (v : Forest Name Node) (d : RelPath) (entries : List DirEntry) : Prop where
  sorted : SortedEntries entries
  found : ∀ c, entries.find? (fun x => x.name = c) = (v (d ++ [c])).map (e.entry c)

namespace ViewAux

theorem sorted_nodup {entries : List DirEntry} (h : SortedEntries entries) : entries.Pairwise (fun a b => a.name ≠ b.name) :=
  h.imp (fun hlt heq => by
    rw [heq] at hlt
    exact List.lt_irrefl _ hlt)

theorem fileType_lasting (n : Node) : n.lasting.fileType = n.fileType := by
  rw [Node.fileType, Node.fileType, Node.lasting_contents]

theorem isLnk_lasting (n : Node) : n.lasting.isLnk = n.isLnk := by
  rw [Node.isLnk, Node.isLnk, Node.lasting_contents]

theorem entry_lasting (e : Engine) (c : Name) (n : Node) : e.entry c n.lasting = e.entry c n := by
  rw [Engine.entry, Engine.entry, fileType_lasting, Engine.workspaceInodeFor, Engine.workspaceInodeFor, Node.lasting_ino]

theorem isLnk_of_fileType {n m : Node} (h : n.fileType = m.fileType) : n.isLnk = m.isLnk := by
  unfold Node.fileType at h
  unfold Node.isLnk
  cases hn : n.contents <;> cases hm : m.contents <;> simp_all

theorem isDir_of_fileType {n m : Node} (h : n.fileType = m.fileType) : n.isDir = m.isDir := by
  unfold Node.fileType at h
  unfold Node.isDir
  cases hn : n.contents <;> cases hm : m.contents <;> simp_all

theorem hides_above {e : Engine} {a p : RelPath} (hap : a <+: p) (h : e.Hides a) : e.Hides p := by
  unfold Engine.Hides baseIsVisible at h ⊢
  rw [List.all_eq_false] at h ⊢
  obtain ⟨q, hq, hbad⟩ := h
  exact ⟨q, List.mem_inits _ _ |>.mpr (((List.mem_inits _ _).mp hq).trans hap), hbad⟩

theorem not_hides {e : Engine} {p : RelPath} : ¬e.Hides p ↔ baseIsVisible e.tombstones p = true := by
  rw [Engine.Hides, Bool.not_eq_false]

end ViewAux

open ViewAux

/-- A listing names what lies directly beneath the path. -/
theorem Engine.Lists.names {e : Engine} {v : Forest Name Node} {d : RelPath} {entries : List DirEntry} (h : e.Lists v d entries)
    (c : Name) : (∃ x ∈ entries, x.name = c) ↔ (v (d ++ [c])).isSome = true := by
  have hf := congrArg Option.isSome (h.found c)
  rw [Option.isSome_map] at hf
  rw [← hf, List.find?_isSome]
  simp

/-! ## The view is a tree -/

section tree

variable {e : Engine} {h : Host} (hl : Layered e h.tree)

include hl

theorem layer_grounded {d : HostPath} (hne : d ≠ []) :
    Forest.Grounded (fun n : Node => n.isDir = true) (fun p => (h.tree.get (d ++ p)).map Node.lasting) := by
  intro p n hs
  have hparent := hl.wf.isDirAt_parent (p := d ++ p ++ [n]) (by
    rw [Option.isSome_map, ← List.append_assoc] at hs
    exact hs)
  rw [List.dropLast_concat] at hparent
  obtain ⟨m, hm, hd⟩ := (isDirAt_iff (by simp [hne])).mp hparent
  exact ⟨m.lasting, by dsimp only; rw [hm]; rfl, m.lasting_isDir.trans hd⟩

/-- Nothing shows beneath what is no directory. -/
theorem view_grounded : Forest.Grounded (fun n : Node => n.isDir = true) (e.view h.tree) :=
  Forest.grounded_overlay (fun _ _ hk hd => (isDir_of_fileType hk).symm.trans hd) hl.agrees (layer_grounded hl hl.placed.upper_ne)
    (layer_grounded hl hl.placed.base_ne) (fun p n hp => hides_above (List.prefix_append p [n]) hp)

/-! ## Lookups -/

variable {p : RelPath} (ho : Ordinary p) (hc : Unbarred (e.view h.tree) p)

include ho hc

theorem clear_upper : Clear h.tree (e.upperPath p) := by
  have hp := hl.placed
  refine clear_under hl.wf hl.upper (hp.upper.append ho) (by simp [hp.upper_ne]) (fun a _ hap hne n hn => ?_)
  have hu : e.upper h.tree a = some n.lasting := by
    unfold Engine.upper Engine.upperPath
    rw [hn]
    rfl
  rw [← isLnk_lasting]
  exact hc a hap hne _ (Forest.overlay_upper hu)

theorem clear_base (hv : ¬e.Hides p) : Clear h.tree (e.basePath p) := by
  have hp := hl.placed
  refine clear_under hl.wf hl.base (hp.base.append ho) (by simp [hp.base_ne]) (fun a _ hap hne n hn => ?_)
  have hva : ¬e.Hides a := fun h => hv (hides_above hap h)
  have hb : e.base h.tree a = some n.lasting := by
    unfold Engine.base Engine.basePath
    rw [hn]
    rfl
  rw [← isLnk_lasting]
  cases hu : e.upper h.tree a with
  | none => exact hc a hap hne _ (by rw [Engine.view, Forest.overlay_lower hu hva, hb])
  | some m =>
    rw [← isLnk_of_fileType (hl.agrees a m _ hu hva hb)]
    exact hc a hap hne m (Forest.overlay_upper hu)

/-- `find_visible_entry_layer` finds what is in the upper tree, or else what no tombstone hides of the Base tree. -/
theorem lookup_eq : e.lookup h p = match h.tree.get (e.upperPath p) with
    | some n => some (.upper, n)
    | none => if e.Hides p then none else (h.tree.get (e.basePath p)).map (Layer.base, ·) := by
  rw [Engine.lookup, lstat_clear hl.wf (clear_upper hl ho hc)]
  cases h.tree.get (e.upperPath p) with
  | some n => rfl
  | none =>
    dsimp only
    by_cases hv : e.Hides p
    · rw [if_pos hv, if_neg (by rw [hv]; decide)]
    · rw [if_neg hv, if_pos (not_hides.mp hv), lstat_clear hl.wf (clear_base hl ho hc hv)]

/-- What a lookup finds is what shows. -/
theorem lookup_sight : (e.lookup h p).map (·.2) = e.sight h.tree p := by
  rw [lookup_eq hl ho hc, Engine.sight, Forest.overlay]
  cases h.tree.get (e.upperPath p) <;> by_cases hv : e.Hides p <;> simp [hv, Option.map_map, Function.comp_def]

/-- It is found in the layer it comes from. -/
theorem lookup_layer (layer : Layer) (n : Node) (hf : e.lookup h p = some (layer, n)) :
    h.tree.get (e.layerPath layer p) = some n := by
  rw [lookup_eq hl ho hc] at hf
  cases hu : h.tree.get (e.upperPath p) with
  | some m =>
    simp only [hu, Option.some.injEq, Prod.mk.injEq] at hf
    obtain ⟨rfl, rfl⟩ := hf
    exact hu
  | none =>
    simp only [hu] at hf
    split at hf
    · cases hf
    · obtain ⟨m, hm, heq⟩ := Option.map_eq_some_iff.mp hf
      cases heq
      exact hm

end tree

/-! ## Listings -/

namespace ViewAux

/-- `entries[entry.name] = entry` is seen at that name. -/
theorem find_insertEntry {entry : DirEntry} {entries : List DirEntry} (h : SortedEntries entries) (c : Name) :
    (insertEntry entry entries).find? (fun x => x.name = c) =
      if entry.name = c then some entry else entries.find? (fun x => x.name = c) := by
  induction entries with
  | nil =>
    by_cases hc : entry.name = c <;> simp [insertEntry, hc]
  | cons y entries ih =>
    obtain ⟨hy, hs⟩ := List.pairwise_cons.mp h
    unfold insertEntry
    split
    · by_cases hc : entry.name = c <;> simp [hc]
    · split
      · rename_i he
        by_cases hc : entry.name = c
        · simp [hc]
        · have hyc : y.name ≠ c := fun hyc => hc (he.trans hyc)
          simp [hc, hyc]
      · rename_i hne
        by_cases hyc : y.name = c
        · have hc : entry.name ≠ c := fun hc => hne (hc.trans hyc.symm)
          simp [hyc, hc]
        · rw [List.find?_cons_of_neg (by simpa using hyc), ih hs, List.find?_cons_of_neg (by simpa using hyc)]

/-- What a merge shows at a name: the child of that name, unless it is filtered out, or else what was there before. -/
theorem find_mergeListing {e : Engine} {d : RelPath} (filterTombstones : Bool) {c : Name} {children : List (Name × Node)}
    (hu : ∀ n m, (c, n) ∈ children → (c, m) ∈ children → n = m) : ∀ {entries : List DirEntry}, SortedEntries entries →
      (∀ n, (c, n) ∈ children → ¬(filterTombstones = true ∧ joinRelative d c ∈ e.tombstones) →
        (e.mergeListing d filterTombstones children entries).find? (fun x => x.name = c) = some (e.entry c n)) ∧
      ((∀ n, (c, n) ∈ children → filterTombstones = true ∧ joinRelative d c ∈ e.tombstones) →
        (e.mergeListing d filterTombstones children entries).find? (fun x => x.name = c) = entries.find? (fun x => x.name = c)) := by
  induction children with
  | nil =>
    intro entries _
    refine ⟨fun n hn => ?_, fun _ => rfl⟩
    cases hn
  | cons child children ih =>
    intro entries hs
    have hu' : ∀ n m, (c, n) ∈ children → (c, m) ∈ children → n = m := fun n m hn hm =>
      hu n m (List.mem_cons_of_mem _ hn) (List.mem_cons_of_mem _ hm)
    generalize hnext : (if filterTombstones && joinRelative d child.1 ∈ e.tombstones then entries
      else insertEntry ⟨child.1, e.workspaceInodeFor child.2, child.2.fileType⟩ entries) = next
    have hfold : e.mergeListing d filterTombstones (child :: children) entries =
        e.mergeListing d filterTombstones children next := by
      rw [← hnext]
      rfl
    have hsorted : SortedEntries next := by
      rw [← hnext]
      split
      · exact hs
      · exact sorted_insertEntry hs
    obtain ⟨hin, hout⟩ := ih hu' hsorted
    rw [hfold]
    refine ⟨fun n hn hvisible => ?_, fun hhidden => ?_⟩
    · by_cases hrest : ∃ m, (c, m) ∈ children
      · obtain ⟨m, hm⟩ := hrest
        rw [hu n m hn (List.mem_cons_of_mem _ hm)]
        exact hin m hm hvisible
      · rw [hout (fun m hm => absurd ⟨m, hm⟩ hrest)]
        rcases List.mem_cons.mp hn with rfl | hn
        · rw [← hnext, if_neg (by simpa using hvisible), find_insertEntry hs, if_pos rfl]
          rfl
        · exact absurd ⟨n, hn⟩ hrest
    · rw [hout (fun n hn => hhidden n (List.mem_cons_of_mem _ hn)), ← hnext]
      by_cases hc : child.1 = c
      · have hhid := hhidden child.2 (by rw [← hc]; exact List.mem_cons_self)
        rw [if_pos (by simpa [hc] using hhid)]
      · split
        · rfl
        · rw [find_insertEntry hs, if_neg hc]

theorem openDirectory_dir {h : Host} (hw : h.tree.WF) {p : HostPath} {n : Node} (hn : h.tree.get p = some n) (hd : n.isDir = true) :
    (h.openDirectory p).1 = .ok (listing h.tree p) := by
  rw [Host.openDirectory, atNode_some hw hn (fun _ => Node.isLnk_of_isDir hd), if_pos hd]
  rfl

theorem openDirectory_missing {h : Host} (hw : h.tree.WF) {p : HostPath} (hc : Clear h.tree p) (hn : h.tree.get p = none) :
    ∃ x, (h.openDirectory p).1 = .error x := by
  rw [Host.openDirectory, Host.atNode, Host.at]
  rcases @Clear.resolve _ hw _ hc true (fun _ m hm => by rw [hn] at hm; cases hm) with ⟨-, hr⟩ | ⟨-, x, hr⟩
  · exact ⟨.ENOENT, by rw [hr]; simp only [nodeAt_of_ne hc.ne_nil, hn]⟩
  · exact ⟨x, by rw [hr]⟩

/-- What merging one layer's directory shows at a name. -/
theorem find_mergeOpened {e : Engine} {h : Host} (hw : h.tree.WF) {p : HostPath} (hc : Clear h.tree p)
    (hd : ∀ n, h.tree.get p = some n → n.isDir = true) {d : RelPath} {filterTombstones : Bool} {entries : List DirEntry}
    (hs : SortedEntries entries) (c : Name) :
    (mergeOpened e d filterTombstones entries (h.openDirectory p).1).find? (fun x => x.name = c) =
      ((if filterTombstones = true ∧ joinRelative d c ∈ e.tombstones then none else h.tree.get (p ++ [c])).map (e.entry c)).or
        (entries.find? (fun x => x.name = c)) := by
  cases hn : h.tree.get p with
  | none =>
    obtain ⟨x, hx⟩ := openDirectory_missing hw hc hn
    have hchild : h.tree.get (p ++ [c]) = none := hw.rooted.get_under_none hc.ne_nil hn (List.prefix_append _ _)
    rw [hx, hchild]
    simp [mergeOpened]
  | some n =>
    rw [openDirectory_dir hw hn (hd n hn), mergeOpened]
    have hmem : ∀ m, (c, m) ∈ listing h.tree p ↔ h.tree.get (p ++ [c]) = some m := fun m => mem_listing
    obtain ⟨hin, hout⟩ := find_mergeListing (e := e) (d := d) filterTombstones (c := c) (fun m m' hm hm' => by
      rw [hmem] at hm hm'
      rw [hm, Option.some.injEq] at hm'
      exact hm') hs
    split
    · rename_i hhidden
      rw [hout (fun _ _ => hhidden)]
      rfl
    · rename_i hvisible
      cases hchild : h.tree.get (p ++ [c]) with
      | none =>
        rw [hout (fun m hm => by rw [hmem, hchild] at hm; cases hm)]
        rfl
      | some m =>
        rw [hin m ((hmem m).mpr hchild) hvisible]
        rfl

end ViewAux

/-- `merge_visible_directory_entries` lists what shows directly beneath a visible directory. -/
theorem merged_lists {e : Engine} {h : Host} (hl : Layered e h.tree) {d : RelPath} (ho : Ordinary d)
    (hc : Unbarred (e.view h.tree) d) {n : Node} (hn : e.view h.tree d = some n) (hd : n.isDir = true) :
    e.Lists (e.view h.tree) d (merged e h d) := by
  have hupper : ∀ m, h.tree.get (e.upperPath d) = some m → m.isDir = true := by
    intro m hm
    have hu : e.upper h.tree d = some m.lasting := by
      rw [Engine.upper, hm]
      rfl
    rw [Engine.view, Forest.overlay_upper hu, Option.some.injEq] at hn
    rw [← m.lasting_isDir, hn]
    exact hd
  have hbase : ¬e.Hides d → ∀ m, h.tree.get (e.basePath d) = some m → m.isDir = true := by
    intro hv m hm
    have hb : e.base h.tree d = some m.lasting := by
      rw [Engine.base, hm]
      rfl
    rw [← m.lasting_isDir]
    cases hu : e.upper h.tree d with
    | none =>
      rw [Engine.view, Forest.overlay_lower hu hv, hb, Option.some.injEq] at hn
      rw [hn]
      exact hd
    | some k =>
      rw [Engine.view, Forest.overlay_upper hu, Option.some.injEq] at hn
      rw [← isDir_of_fileType (hl.agrees d k _ hu hv hb), hn]
      exact hd
  have hfirst : SortedEntries (if baseIsVisible e.tombstones d then mergeOpened e d true [] (h.openDirectory (e.basePath d)).1
      else []) := by
    split
    · cases (h.openDirectory (e.basePath d)).1 with
      | error x => exact List.Pairwise.nil
      | ok children => exact sorted_mergeListing List.Pairwise.nil
    · exact List.Pairwise.nil
  refine ⟨sorted_merged e h d, fun c => ?_⟩
  have hview : e.view h.tree (d ++ [c]) = ((h.tree.get (e.upperPath d ++ [c])).map Node.lasting).or
      (if e.Hides (d ++ [c]) then none else (h.tree.get (e.basePath d ++ [c])).map Node.lasting) := by
    rw [Engine.upperPath, Engine.basePath, List.append_assoc, List.append_assoc]
    rfl
  rw [merged, find_mergeOpened hl.wf (clear_upper hl ho hc) hupper hfirst, hview]
  cases h.tree.get (e.upperPath d ++ [c]) with
  | some m => simp [entry_lasting]
  | none =>
    by_cases hv : e.Hides d
    · have hvc : e.Hides (d ++ [c]) := hides_above (List.prefix_append d [c]) hv
      have hvd : ¬baseIsVisible e.tombstones d = true := fun hb => not_hides.mpr hb hv
      rw [if_neg hvd, if_pos hvc]
      simp
    · have hchild : e.Hides (d ++ [c]) ↔ joinRelative d c ∈ e.tombstones := by
        rw [← not_iff_not, not_hides, baseIsVisible_child]
        exact ⟨fun h => h.2, fun h => ⟨not_hides.mp hv, h⟩⟩
      rw [if_pos (not_hides.mp hv), find_mergeOpened hl.wf (clear_base hl ho hc hv) (hbase hv) List.Pairwise.nil]
      by_cases ht : joinRelative d c ∈ e.tombstones
      · simp [ht, hchild.mpr ht]
      · rw [if_neg (fun h => ht h.2), if_neg (fun h => ht (hchild.mp h))]
        cases h.tree.get (e.basePath d ++ [c]) <;> simp [entry_lasting, ht]

end TribiosVfs

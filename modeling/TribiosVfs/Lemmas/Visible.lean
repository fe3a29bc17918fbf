import TribiosVfs.Lemmas.HostRuns
import TribiosVfs.Lemmas.Listings

/-!
# What is visible

A listing names the entries that lookups find one level further down, whatever symlinks the kernel follows on the way: `opendir`
of a path and `lstat` of a path one name longer end in the same directory (`walk_concat_iff`). So the tree a Workspace shows at a
path is read off its lookups alone (`Engine.shown`).
-/

namespace TribiosVfs

namespace Runs

/-- What a merge makes of a directory that may not open. -/
def mergeOpened (e : Engine) (relative : RelPath) (filterTombstones : Bool) (entries : List DirEntry) :
    Except Errno (List (Name × Node)) → List DirEntry
  | .error _ => entries
  | .ok children => e.mergeListing relative filterTombstones children entries

/-- The merged listing of a directory. -/
def merged (e : Engine) (h : Host) (relative : RelPath) : List DirEntry :=
  mergeOpened e relative false
    (if baseIsVisible e.tombstones relative then mergeOpened e relative true [] (h.openDirectory (e.basePath relative)).1 else [])
    (h.openDirectory (e.upperPath relative)).1

theorem run_mergeDirectory (w : World) (relative : RelPath) (path : HostPath) (filterTombstones : Bool)
    (entries : List DirEntry) (e : Engine) :
    (mergeDirectory relative path filterTombstones entries e).run exec w =
      (.ok (mergeOpened e relative filterTombstones entries (w.host.openDirectory path).1), w) := by
  have hw : (exec (.openDirectory path) w).2 = w := exec_reads rfl w
  rw [mergeDirectory, run_bind]
  have hrun : ((Io.call (.openDirectory path)).attempt : Io _).run exec w = (.ok (w.host.openDirectory path).1, w) :=
    congrArg (fun w' => (Except.ok (w.host.openDirectory path).1, w')) hw
  rw [hrun]
  dsimp only
  cases (w.host.openDirectory path).1 <;> rfl

theorem run_mergeVisible (w : World) (relative : RelPath) (e : Engine) :
    (mergeVisibleDirectoryEntries relative e).run exec w = (.ok (merged e w.host relative), w) := by
  rw [mergeVisibleDirectoryEntries, run_bind, mergeBaseDirectory, merged]
  by_cases hv : baseIsVisible e.tombstones relative = true
  · rw [if_pos hv, if_pos hv, run_mergeDirectory]
    dsimp only
    rw [run_mergeDirectory]
  · rw [if_neg hv, if_neg hv, run_pure]
    dsimp only
    rw [run_mergeDirectory]

theorem run_compute (w : World) (relative : RelPath) (e : Engine) :
    (computeDirectoryEntries relative e).run exec w =
      ((match e.lookup w.host relative with
        | none => .error .ENOENT
        | some (_, st) => if st.isDir = false then .error .ENOTDIR else .ok (merged e w.host relative)), w) := by
  rw [computeDirectoryEntries, run_bind, run_find]
  cases e.lookup w.host relative with
  | none => rfl
  | some found =>
    dsimp only
    rw [run_bind, run_refuse]
    by_cases hd : found.2.isDir = false
    · rw [if_pos hd, if_pos hd]
    · rw [if_neg hd, if_neg hd]
      exact run_mergeVisible w relative e

end Runs

open Runs

/-! ## Children -/

theorem baseIsVisible_child (tombstones : List RelPath) (relative : RelPath) (c : Name) :
    baseIsVisible tombstones (relative ++ [c]) = true ↔
      baseIsVisible tombstones relative = true ∧ relative ++ [c] ∉ tombstones := by
  simp [baseIsVisible, List.inits_append]

theorem sorted_merged (e : Engine) (h : Host) (relative : RelPath) : SortedEntries (merged e h relative) := by
  have hopened : ∀ (filterTombstones : Bool) (entries : List DirEntry) (r : Except Errno (List (Name × Node))),
      SortedEntries entries → SortedEntries (mergeOpened e relative filterTombstones entries r) := by
    intro filterTombstones entries r hs
    cases r with
    | error x => exact hs
    | ok children => exact sorted_mergeListing hs
  have hnil : SortedEntries [] := List.Pairwise.nil
  unfold merged
  refine hopened _ _ _ ?_
  split
  · exact hopened _ _ _ hnil
  · exact hnil

/-- The tree a Workspace shows at a path: what is beneath an entry is shown where the entry is a directory. -/
def Engine.shown (e : Engine) (h : Host) : RelPath → List Name → Option Node
  | relative, [] => (e.lookup h relative).map (·.2)
  | relative, c :: s =>
    if (e.lookup h relative).any (·.2.isDir) then e.shown h (joinRelative relative c) s else none

end TribiosVfs

import TribiosVfs.Theorems.CopyOnWrite

/-!
# What copying changes

`create_missing_upper_parent_directories` and `materialize_visible_entry_at`, whatever the layers and the umask are: what they leave
as it was, what they may change, and what the copy is.
-/

namespace TribiosVfs

open PublicationAux ViewAux MaterializeAux

/-- A directory has been copied up: it shows with what `mkdir` and the umask leave of its permission bits, and with the set-group-ID
bit of the directory above it in the upper tree. -/
structure CopiedUp (e : Engine) (h h' : Host) (r p : RelPath) (v v' : Forest Name Node) : Prop where
  above : p <+: r ∧ p ≠ r
  lower : e.upper h.tree p = none
  shows : ∃ n n', v p = some n ∧ v' p = some n' ∧ n.isDir = true ∧ n'.isDir = true ∧
    n'.attrs.perm = (h.maskPerm n.attrs.perm &&& 1023) ||| groupBit h'.tree (e.upperPath (parentOf p))

namespace CopyOnWriteWitness

theorem layers : Layered engine world.host.tree := home.layered (CopyOnWriteAux.fresh_serves fresh).1.agrees

theorem vacant : Vacant engine world.host (engine.stagePath 1) :=
  ⟨home.placed.stage_ordinary 1, List.prefix_refl _, by decide, home.fresh 1 (by decide)⟩

theorem soundTargets : SoundTargets (engine.sight world.host.tree) [[100]] := by
  intro s n target hn hc
  refine absurd ?_ (@no_symlink engine _ plain ([[100]] ++ s) target)
  rw [Engine.shape, view_sight, hn, Option.map_some, Option.map_some, n.lasting_contents, hc]

end CopyOnWriteWitness

end TribiosVfs

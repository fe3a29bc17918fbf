import TribiosVfs.Lib.Words
import TribiosVfs.WorkspaceEngine

/-!
# Inode numbers of a Workspace

The finalizer is a bijection of the 64-bit words before zero is turned into one. So two backing inodes meet for exactly one pair:
the inode that mixes to zero and the one that mixes to one.
-/

namespace TribiosVfs

/-- `salted_workspace_inode` before zero is replaced. -/
def mixedWorkspaceInode (salt backingInode : UInt64) : UInt64 :=
  let value := backingInode + salt
  let value := (value ^^^ (value >>> 30)) * 0xbf58476d1ce4e5b9
  let value := (value ^^^ (value >>> 27)) * 0x94d049bb133111eb
  value ^^^ (value >>> 31)

namespace InodeAux

/-- The stages of the finalizer, one after the other. -/
theorem mixed_injective (salt : UInt64) : Function.Injective (mixedWorkspaceInode salt) := by
  have h30 := Words.xorShift_injective (k := 30) (by decide)
  have h27 := Words.xorShift_injective (k := 27) (by decide)
  have h31 := Words.xorShift_injective (k := 31) (by decide)
  have hfirst := @Words.mul_injective 0xbf58476d1ce4e5b9 0x96de1b173f119089 (by decide)
  have hsecond := @Words.mul_injective 0x94d049bb133111eb 0x319642b2d24d8ec3 (by decide)
  exact h31.comp (hsecond.comp (h27.comp (hfirst.comp (h30.comp (Words.add_injective salt)))))

theorem salted_eq (salt backingInode : UInt64) : saltedWorkspaceInode salt backingInode =
    if mixedWorkspaceInode salt backingInode = 0 then 1 else mixedWorkspaceInode salt backingInode := rfl

theorem salted_ne_zero (salt backingInode : UInt64) : saltedWorkspaceInode salt backingInode ≠ 0 := by
  rw [salted_eq]
  split
  · decide
  · assumption

end InodeAux

/-! ## Theorem: the one collision -/

/-- Under every salt no backing inode gets the number zero, and two of them get one number exactly when they are the one that mixes
to zero and the one that mixes to one; that number is 1. -/
theorem one_inode_collision (salt : UInt64) :
    (∀ inode, saltedWorkspaceInode salt inode ≠ 0) ∧
    ∃ zeroed first, zeroed ≠ first ∧ mixedWorkspaceInode salt zeroed = 0 ∧ mixedWorkspaceInode salt first = 1 ∧
      saltedWorkspaceInode salt zeroed = 1 ∧ saltedWorkspaceInode salt first = 1 ∧
      ∀ inode other, inode ≠ other → (saltedWorkspaceInode salt inode = saltedWorkspaceInode salt other ↔
        inode = zeroed ∧ other = first ∨ inode = first ∧ other = zeroed) := by
  refine ⟨InodeAux.salted_ne_zero salt, ?_⟩
  have hbij := Words.bijective_of_injective (InodeAux.mixed_injective salt)
  obtain ⟨zeroed, first, hne, hzero, hone, hmeet⟩ := Words.collision_of_bijective hbij (a := 0) (b := 1) (by decide)
  refine ⟨zeroed, first, hne, hzero, hone, ?_, ?_, fun inode other hdiff => ?_⟩
  · rw [InodeAux.salted_eq, if_pos hzero]
  · rw [InodeAux.salted_eq, hone]
    decide
  · rw [InodeAux.salted_eq, InodeAux.salted_eq]
    exact hmeet inode other hdiff

end TribiosVfs

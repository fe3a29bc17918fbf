import TribiosVfs.Lemmas.Looks
import TribiosVfs.Lemmas.Programs

/-!
# Merged listings

`merge_visible_directory_entries` collects entries in a `std::map`: the result is sorted by name, holds one entry a name, and does
not depend on the order in which a directory lists its children.
-/

namespace TribiosVfs

section order

instance irrefl_byte : Std.Irrefl (fun a b : UInt8 => a < b) := ⟨UInt8.lt_irrefl⟩
instance asymm_byte : Std.Asymm (fun a b : UInt8 => a < b) := ⟨fun _ _ => UInt8.lt_asymm⟩
instance trans_byte : Trans (fun a b : UInt8 => a < b) (fun a b : UInt8 => a < b) (fun a b : UInt8 => a < b) := ⟨UInt8.lt_trans⟩

instance trichotomous_byte : Std.Trichotomous (fun a b : UInt8 => a < b) where
  trichotomous a b h h' := by
    by_contra hne
    rcases UInt8.lt_or_lt_of_ne hne with hab | hba
    · exact h hab
    · exact h' hba

theorem Name.lt_trichotomy (a b : Name) : a < b ∨ a = b ∨ b < a := by
  by_cases h : a < b
  · exact Or.inl h
  · right
    rcases List.le_iff_lt_or_eq.mp (List.not_lt.mp h) with h' | h'
    · exact Or.inr h'
    · exact Or.inl h'.symm

end order

/-! ## The map of entries -/

/-- Entries in the order of a `std::map`. -/
def SortedEntries (entries : List DirEntry) : Prop := entries.Pairwise (fun a b => a.name < b.name)

theorem mem_insertEntry {entry x : DirEntry} {entries : List DirEntry} (h : x ∈ insertEntry entry entries) :
    x = entry ∨ x ∈ entries := by
  induction entries with
  | nil => exact Or.inl (List.mem_singleton.mp h)
  | cons y entries ih =>
    unfold insertEntry at h
    split at h
    · rcases List.mem_cons.mp h with h | h
      · exact Or.inl h
      · exact Or.inr h
    · split at h
      · rcases List.mem_cons.mp h with h | h
        · exact Or.inl h
        · exact Or.inr (List.mem_cons_of_mem _ h)
      · rcases List.mem_cons.mp h with h | h
        · exact Or.inr (h ▸ List.mem_cons_self)
        · rcases ih h with h | h
          · exact Or.inl h
          · exact Or.inr (List.mem_cons_of_mem _ h)

theorem sorted_insertEntry {entry : DirEntry} {entries : List DirEntry} (h : SortedEntries entries) :
    SortedEntries (insertEntry entry entries) := by
  induction entries with
  | nil => simp [insertEntry, SortedEntries]
  | cons y entries ih =>
    obtain ⟨hy, hs⟩ := List.pairwise_cons.mp h
    unfold insertEntry
    split
    · rename_i hlt
      refine List.pairwise_cons.mpr ⟨fun x hx => ?_, h⟩
      rcases List.mem_cons.mp hx with rfl | hx
      · exact hlt
      · exact List.lt_trans hlt (hy x hx)
    · split
      · rename_i he
        exact List.pairwise_cons.mpr ⟨fun x hx => he ▸ hy x hx, hs⟩
      · rename_i hlt hne
        refine List.pairwise_cons.mpr ⟨fun x hx => ?_, ih hs⟩
        rcases mem_insertEntry hx with rfl | hx
        · rcases Name.lt_trichotomy x.name y.name with h' | h' | h'
          · exact absurd h' hlt
          · exact absurd h' hne
          · exact h'
        · exact hy x hx

/-- Entries of different names can be put in either order. -/
theorem insertEntry_comm {a b : DirEntry} (hne : a.name ≠ b.name) (entries : List DirEntry) :
    insertEntry a (insertEntry b entries) = insertEntry b (insertEntry a entries) := by
  have asymm : ∀ {m n : Name}, m < n → ¬n < m := fun h => List.lt_asymm h
  have irrefl : ∀ n : Name, ¬n < n := fun n => List.lt_irrefl n
  have trans : ∀ {l m n : Name}, l < m → m < n → l < n := fun h h' => List.lt_trans h h'
  induction entries with
  | nil =>
    rcases Name.lt_trichotomy a.name b.name with h | h | h
    · simp [insertEntry, h, asymm h, Ne.symm hne]
    · exact absurd h hne
    · simp [insertEntry, h, asymm h, hne]
  | cons y entries ih =>
    rcases Name.lt_trichotomy a.name y.name with ha | ha | ha <;>
      rcases Name.lt_trichotomy b.name y.name with hb | hb | hb
    · rcases Name.lt_trichotomy a.name b.name with h | h | h
      · simp [insertEntry, ha, hb, h, asymm h, Ne.symm hne]
      · exact absurd h hne
      · simp [insertEntry, ha, hb, h, asymm h, hne]
    · have hya : y.name ≠ a.name := fun e => hne (hb.trans e).symm
      simp [insertEntry, ha, hb, irrefl, asymm ha, hya]
    · have hab := trans ha hb
      have hne' : b.name ≠ y.name := fun e => irrefl _ (e ▸ hb)
      simp [insertEntry, ha, asymm hb, asymm hab, hne', Ne.symm hne]
    · have hyb : y.name ≠ b.name := fun e => hne (ha.trans e)
      simp [insertEntry, hb, ha, irrefl, asymm hb, hyb]
    · exact absurd (ha.trans hb.symm) hne
    · have hne' : b.name ≠ y.name := fun e => irrefl _ (e ▸ hb)
      simp [insertEntry, ha, irrefl, asymm hb, hne']
    · have hba := trans hb ha
      have hne' : a.name ≠ y.name := fun e => irrefl _ (e ▸ ha)
      simp [insertEntry, hb, asymm ha, asymm hba, hne', hne]
    · have hne' : a.name ≠ y.name := fun e => irrefl _ (e ▸ ha)
      simp [insertEntry, hb, irrefl, asymm ha, hne']
    · have hne' : a.name ≠ y.name := fun e => irrefl _ (e ▸ ha)
      have hne'' : b.name ≠ y.name := fun e => irrefl _ (e ▸ hb)
      simp [insertEntry, asymm ha, asymm hb, hne', hne'', ih]

/-- What `merge_visible_directory_entries` makes of one directory's children. -/
def Engine.mergeListing (e : Engine) (relative : RelPath) (filterTombstones : Bool) (children : List (Name × Node))
    (entries : List DirEntry) : List DirEntry :=
  children.foldl (fun entries child =>
    if filterTombstones && joinRelative relative child.1 ∈ e.tombstones then entries
    else insertEntry ⟨child.1, e.workspaceInodeFor child.2, child.2.fileType⟩ entries) entries

/-- The order in which a directory lists its children does not matter. -/
theorem mergeListing_perm (e : Engine) (relative : RelPath) (filterTombstones : Bool) {children children' : List (Name × Node)}
    (h : children'.Perm children) (hu : ∀ x ∈ children', ∀ y ∈ children', x.1 = y.1 → x = y) (entries : List DirEntry) :
    e.mergeListing relative filterTombstones children' entries = e.mergeListing relative filterTombstones children entries := by
  refine List.Perm.foldl_eq' h (fun x hx y hy z => ?_) entries
  by_cases hn : x.1 = y.1
  · rw [hu x hx y hy hn]
  · split <;> split <;> first
      | rfl
      | exact insertEntry_comm (Ne.symm hn) z

/-- A merge keeps the order of the map. -/
theorem sorted_mergeListing {e : Engine} {relative : RelPath} {filterTombstones : Bool} {children : List (Name × Node)} :
    ∀ {entries : List DirEntry}, SortedEntries entries →
      SortedEntries (e.mergeListing relative filterTombstones children entries) := by
  induction children with
  | nil => exact fun h => h
  | cons child children ih =>
    intro entries h
    refine ih ?_
    dsimp only
    split
    · exact h
    · exact sorted_insertEntry h

end TribiosVfs

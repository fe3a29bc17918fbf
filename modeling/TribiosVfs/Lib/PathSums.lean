import TribiosVfs.Lib.PathMap

/-!
# Sums over a subtree

In a rooted map the entries beneath a path are the children and what is beneath them, each once, so that a recursion over the
children adds up to a sum over the subtree.
-/

namespace PathMap

variable {N V M : Type} [DecidableEq N] [AddCommMonoid M] {m : PathMap N V} {holds : V → Bool}

/-- The entries beneath a path. -/
def beneath (m : PathMap N V) (p : List N) : Finset (List N) := m.keys.toFinset.filter (fun q => p <+: q ∧ q ≠ p)

theorem mem_beneath {p q : List N} : q ∈ m.beneath p ↔ (m.get q).isSome ∧ p <+: q ∧ q ≠ p := by
  simp [beneath, mem_keys]

/-- Beneath a path lie its children and what is beneath them. -/
theorem Rooted.mem_beneath_iff (h : Rooted holds m) {p q : List N} :
    q ∈ m.beneath p ↔ ∃ n ∈ m.names p, q = p ++ [n] ∨ q ∈ m.beneath (p ++ [n]) := by
  rw [mem_beneath]
  constructor
  · rintro ⟨hq, ⟨t, rfl⟩, hne⟩
    obtain ⟨n, t, rfl⟩ := List.exists_cons_of_ne_nil (l := t) (by rintro rfl; simp at hne)
    have hle : p ++ [n] <+: p ++ n :: t := ⟨t, by simp⟩
    by_cases ht : p ++ [n] = p ++ n :: t
    · exact ⟨n, mem_names.mpr (ht ▸ hq), Or.inl ht.symm⟩
    · obtain ⟨v, hv, -⟩ := h.ancestor hq hle ht (by simp)
      exact ⟨n, mem_names.mpr (by rw [hv]; rfl), Or.inr (mem_beneath.mpr ⟨hq, hle, Ne.symm ht⟩)⟩
  · rintro ⟨n, hn, rfl | hq⟩
    · exact ⟨mem_names.mp hn, List.prefix_append _ _, by simp⟩
    · obtain ⟨hget, hle, -⟩ := mem_beneath.mp hq
      refine ⟨hget, (List.prefix_append _ _).trans hle, ?_⟩
      rintro rfl
      exact absurd hle.length_le (by simp)

/-- A sum over what is beneath a path, a child at a time. -/
theorem Rooted.sum_beneath (h : Rooted holds m) (f : List N → M) (p : List N) :
    ∑ q ∈ m.beneath p, f q = ((m.names p).map (fun n => f (p ++ [n]) + ∑ q ∈ m.beneath (p ++ [n]), f q)).sum := by
  have hnot : ∀ n, p ++ [n] ∉ m.beneath (p ++ [n]) := fun n hn => (mem_beneath.mp hn).2.2 rfl
  have hunion : m.beneath p = (m.names p).toFinset.biUnion (fun n => insert (p ++ [n]) (m.beneath (p ++ [n]))) := by
    ext q
    rw [h.mem_beneath_iff]
    simp
  have hdisjoint : Set.PairwiseDisjoint (↑(m.names p).toFinset : Set N)
      (fun n => insert (p ++ [n]) (m.beneath (p ++ [n]))) := by
    intro a _ b _ hab
    refine Finset.disjoint_left.mpr (fun q hqa hqb => hab ?_)
    have hunder : ∀ n, q ∈ insert (p ++ [n]) (m.beneath (p ++ [n])) → p ++ [n] <+: q := by
      intro n hn
      rcases Finset.mem_insert.mp hn with rfl | hn
      · exact List.prefix_refl _
      · exact (mem_beneath.mp hn).2.1
    obtain ⟨s, hs⟩ := hunder a hqa
    obtain ⟨t, ht⟩ := hunder b hqb
    have := hs.trans ht.symm
    simp only [List.append_assoc, List.append_cancel_left_eq, List.singleton_append, List.cons.injEq] at this
    exact this.1
  rw [hunion, Finset.sum_biUnion hdisjoint, ← List.sum_toFinset _ (nodup_names m p)]
  exact Finset.sum_congr rfl (fun n _ => Finset.sum_insert (hnot n))

/-- Nothing is beneath an entry that holds nothing. -/
theorem Rooted.beneath_leaf (h : Rooted holds m) {p : List N} {v : V} (hp : p ≠ []) (hv : m.get p = some v) (hl : holds v = false) :
    m.beneath p = ∅ := by
  refine Finset.eq_empty_of_forall_notMem (fun q hq => ?_)
  obtain ⟨hget, hle, hne⟩ := mem_beneath.mp hq
  rw [h.get_under_leaf hp hv hl hle (Ne.symm hne)] at hget
  cases hget

/-- Everything is beneath the root. -/
theorem Rooted.beneath_root (h : Rooted holds m) : m.beneath [] = m.keys.toFinset := by
  ext q
  rw [mem_beneath, List.mem_toFinset, mem_keys]
  refine ⟨fun hq => hq.1, fun hq => ⟨hq, List.nil_prefix, ?_⟩⟩
  rintro rfl
  rw [h.root] at hq
  cases hq

end PathMap

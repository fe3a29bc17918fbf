import Mathlib

/-!
# Finite maps keyed by paths

A tree kept flat: a finite map from paths (lists of names) to values. The operations are those of a file tree (one entry, a
whole subtree, moving a subtree), and each comes with the lemma that says what `get` reads after it.
`PathMap.Rooted` is what makes such a map a tree: every entry lies directly under an entry that may hold others.
-/

/-- A finite map from paths to values; an earlier entry of a path shadows a later one. -/
structure PathMap (N V : Type) where
  entries : List (List N × V)

namespace PathMap

variable {N V : Type} [DecidableEq N]

/-- The value of the first entry with the path. -/
def lookupIn : List (List N × V) → List N → Option V
  | [], _ => none
  | (q, v) :: es, p => if q = p then some v else lookupIn es p

/-- The value at a path. -/
def get (m : PathMap N V) (p : List N) : Option V := lookupIn m.entries p

def empty : PathMap N V := ⟨[]⟩

/-- The entries whose path is kept. -/
def keep (m : PathMap N V) (f : List N → Bool) : PathMap N V := ⟨m.entries.filter (fun e => f e.1)⟩

/-- Replace the value at a path. -/
def set (m : PathMap N V) (p : List N) (v : V) : PathMap N V := ⟨(p, v) :: (m.keep (fun q => q ≠ p)).entries⟩

/-- Remove the entry at a path. -/
def erase (m : PathMap N V) (p : List N) : PathMap N V := m.keep (fun q => q ≠ p)

/-- Apply a function to the value at a path. -/
def modify (m : PathMap N V) (p : List N) (f : V → V) : PathMap N V :=
  ⟨m.entries.map (fun e => if e.1 = p then (e.1, f e.2) else e)⟩

/-- Move the subtree at `src` to `dst`, in place of whatever was there. -/
def move (m : PathMap N V) (src dst : List N) : PathMap N V :=
  ⟨((m.keep (fun q => src <+: q)).entries.map (fun e => (dst ++ e.1.drop src.length, e.2))) ++
    (m.keep (fun q => ¬src <+: q ∧ ¬dst <+: q)).entries⟩

/-- Every path that has an entry, once. -/
def keys (m : PathMap N V) : List (List N) := (m.entries.map (·.1)).dedup

/-- The last names of the paths directly under a path. -/
def names (m : PathMap N V) (p : List N) : List N :=
  m.keys.filterMap (fun q => if q.dropLast = p then q.getLast? else none)

/-- The paths at and beneath a path, the longer before the shorter. -/
def keysUnder (m : PathMap N V) (p : List N) : List (List N) :=
  (m.keys.filter (fun q => p <+: q)).insertionSort (fun a b => b.length ≤ a.length)

/-- The length of the longest path that has an entry. -/
def depth (m : PathMap N V) : Nat := (m.entries.map (·.1.length)).foldr max 0

/-! ## What `get` reads -/

theorem lookupIn_filter (es : List (List N × V)) (f : List N → Bool) (p : List N) :
    lookupIn (es.filter (fun e => f e.1)) p = if f p then lookupIn es p else none := by
  induction es with
  | nil => simp [lookupIn]
  | cons e es ih =>
    obtain ⟨q, v⟩ := e
    by_cases hq : q = p
    · subst hq
      by_cases hf : f q <;> simp [lookupIn, hf, ih]
    · by_cases hf : f q <;> simp [lookupIn, hf, hq, ih]

theorem lookupIn_append (as bs : List (List N × V)) (p : List N) :
    lookupIn (as ++ bs) p = (lookupIn as p).or (lookupIn bs p) := by
  induction as with
  | nil => simp [lookupIn]
  | cons e as ih =>
    obtain ⟨q, v⟩ := e
    by_cases hq : q = p <;> simp [lookupIn, hq, ih]

theorem get_keep (m : PathMap N V) (f : List N → Bool) (p : List N) :
    (m.keep f).get p = if f p then m.get p else none :=
  lookupIn_filter m.entries f p

theorem get_set (m : PathMap N V) (p q : List N) (v : V) :
    (m.set p v).get q = if q = p then some v else m.get q := by
  have h : lookupIn (m.keep (fun q => q ≠ p)).entries q = _ := get_keep m (fun q => q ≠ p) q
  by_cases hq : q = p
  · simp [get, set, lookupIn, hq]
  · have hq' : ¬p = q := fun e => hq e.symm
    rw [if_pos (by simpa using hq)] at h
    simp only [get, set, lookupIn, hq, hq', if_false]
    exact h

theorem get_erase (m : PathMap N V) (p q : List N) : (m.erase p).get q = if q = p then none else m.get q := by
  rw [erase, get_keep]
  by_cases hq : q = p <;> simp [hq]

theorem get_modify (m : PathMap N V) (p q : List N) (f : V → V) :
    (m.modify p f).get q = if q = p then (m.get q).map f else m.get q := by
  unfold get modify
  induction m.entries with
  | nil => simp [lookupIn]
  | cons e es ih =>
    obtain ⟨r, v⟩ := e
    by_cases hr : r = p
    · subst hr
      by_cases hrq : r = q
      · simp [lookupIn, hrq]
      · have hqr : ¬q = r := fun e => hrq e.symm
        simpa [lookupIn, hrq, hqr] using ih
    · by_cases hrq : r = q
      · subst hrq
        simp [lookupIn, hr]
      · simpa [lookupIn, hr, hrq] using ih

theorem lookupIn_rekey (es : List (List N × V)) (src dst p : List N) (h : ∀ e ∈ es, src <+: e.1) :
    lookupIn (es.map (fun e => (dst ++ e.1.drop src.length, e.2))) p =
      if dst <+: p then lookupIn es (src ++ p.drop dst.length) else none := by
  induction es with
  | nil => simp [lookupIn]
  | cons e es ih =>
    obtain ⟨q, v⟩ := e
    obtain ⟨s, rfl⟩ := h _ List.mem_cons_self
    have ih' := ih (fun e he => h e (List.mem_cons_of_mem _ he))
    simp only [List.map_cons, lookupIn, List.drop_left, ih']
    by_cases hd : dst <+: p
    · obtain ⟨t, rfl⟩ := hd
      simp
    · have hne : ¬dst ++ s = p := fun e => hd ⟨s, e⟩
      simp [hd, hne]

theorem get_move (m : PathMap N V) (src dst p : List N) :
    (m.move src dst).get p =
      if dst <+: p then m.get (src ++ p.drop dst.length) else if src <+: p then none else m.get p := by
  have h1 : lookupIn (m.keep (fun q => src <+: q)).entries (src ++ p.drop dst.length) = _ := get_keep m _ _
  have h2 : lookupIn (m.keep (fun q => ¬src <+: q ∧ ¬dst <+: q)).entries p = _ := get_keep m _ _
  unfold get move
  rw [lookupIn_append, lookupIn_rekey, h1, h2]
  · by_cases hd : dst <+: p
    · simp [hd, get]
    · by_cases hs : src <+: p <;> simp [hd, hs, get]
  · intro e he
    simpa using (List.mem_filter.mp he).2

/-! ## Keys, names and subtrees -/

theorem mem_keys {m : PathMap N V} {p : List N} : p ∈ m.keys ↔ (m.get p).isSome := by
  unfold keys get
  rw [List.mem_dedup]
  induction m.entries with
  | nil => simp [lookupIn]
  | cons e es ih =>
    obtain ⟨q, v⟩ := e
    by_cases hq : q = p
    · simp [lookupIn, hq]
    · have hq' : ¬p = q := fun e => hq e.symm
      rw [List.map_cons, List.mem_cons, ih]
      simp [lookupIn, hq, hq']

theorem mem_names {m : PathMap N V} {p : List N} {n : N} : n ∈ m.names p ↔ (m.get (p ++ [n])).isSome := by
  unfold names
  rw [List.mem_filterMap]
  constructor
  · rintro ⟨q, hq, hn⟩
    split at hn
    · rename_i hd
      have hne : q ≠ [] := by rintro rfl; simp at hn
      rw [List.getLast?_eq_some_getLast hne, Option.some.injEq] at hn
      have : p ++ [n] = q := by rw [← hd, ← hn, List.dropLast_append_getLast hne]
      exact this ▸ mem_keys.mp hq
    · cases hn
  · intro h
    exact ⟨p ++ [n], mem_keys.mpr h, by simp⟩

theorem nodup_names (m : PathMap N V) (p : List N) : (m.names p).Nodup := by
  unfold names
  refine (List.nodup_dedup _).filterMap (fun a b n ha hb => ?_)
  have split_last : ∀ q : List N, n ∈ (if q.dropLast = p then q.getLast? else none) → q = p ++ [n] := by
    intro q hq
    split at hq
    · rename_i hd
      have hne : q ≠ [] := by rintro rfl; simp at hq
      rw [List.getLast?_eq_some_getLast hne, Option.mem_some_iff] at hq
      rw [← hd, ← hq, List.dropLast_append_getLast hne]
    · cases hq
  rw [split_last a ha, split_last b hb]

theorem mem_keysUnder {m : PathMap N V} {p q : List N} : q ∈ m.keysUnder p ↔ p <+: q ∧ (m.get q).isSome := by
  unfold keysUnder
  rw [(List.perm_insertionSort _ _).mem_iff, List.mem_filter, mem_keys]
  simp [and_comm]

theorem nodup_keysUnder (m : PathMap N V) (p : List N) : (m.keysUnder p).Nodup := by
  unfold keysUnder keys
  exact (List.perm_insertionSort _ _).nodup_iff.mpr ((List.nodup_dedup _).filter _)

theorem sorted_keysUnder (m : PathMap N V) (p : List N) :
    (m.keysUnder p).Pairwise (fun a b => b.length ≤ a.length) := by
  have : Std.Total (fun a b : List N => b.length ≤ a.length) := ⟨fun a b => by omega⟩
  have : IsTrans (List N) (fun a b : List N => b.length ≤ a.length) := ⟨fun a b c h h' => by omega⟩
  exact List.pairwise_insertionSort _ _

theorem length_le_depth {m : PathMap N V} {p : List N} (h : (m.get p).isSome) : p.length ≤ m.depth := by
  unfold depth
  unfold get at h
  generalize m.entries = es at h
  induction es with
  | nil => simp [lookupIn] at h
  | cons e es ih =>
    obtain ⟨q, v⟩ := e
    simp only [List.map_cons, List.foldr_cons]
    by_cases hq : q = p
    · subst hq
      exact Nat.le_max_left _ _
    · simp only [lookupIn, hq, if_false] at h
      exact (ih h).trans (Nat.le_max_right _ _)

/-! ## Rooted maps -/

/-- Every entry lies directly under the root or under an entry that may hold others, and the root has no entry of its own. -/
structure Rooted (holds : V → Bool) (m : PathMap N V) : Prop where
  root : m.get [] = none
  parent : ∀ p n, (m.get (p ++ [n])).isSome → p = [] ∨ ∃ v, m.get p = some v ∧ holds v = true

section rooted

variable {holds : V → Bool} {m : PathMap N V}

/-- An entry that is read is one of the map's. -/
theorem mem_entries_of_get {p : List N} {v : V} (h : m.get p = some v) : (p, v) ∈ m.entries := by
  unfold get at h
  generalize m.entries = es at h
  induction es with
  | nil => cases h
  | cons e es ih =>
    obtain ⟨q, w⟩ := e
    rw [lookupIn] at h
    split at h
    · rename_i he
      cases h
      exact he ▸ List.mem_cons_self
    · exact List.mem_cons_of_mem _ (ih h)

/-- A map is rooted when each of its entries is in its place. -/
theorem rooted_of_entries (h : ∀ e ∈ m.entries, e.1 ≠ [] ∧ (e.1.dropLast = [] ∨ (m.get e.1.dropLast).any holds = true)) :
    Rooted holds m where
  root := by
    by_contra hne
    obtain ⟨v, hv⟩ := Option.ne_none_iff_exists'.mp hne
    exact (h _ (mem_entries_of_get hv)).1 rfl
  parent p n hp := by
    obtain ⟨v, hv⟩ := Option.isSome_iff_exists.mp hp
    have hd := (h _ (mem_entries_of_get hv)).2
    rw [List.dropLast_concat] at hd
    exact hd.imp id (fun hd => (Option.any_eq_true holds _).mp hd)

/-- In a rooted map every proper ancestor of an entry may hold others. -/
theorem Rooted.ancestor (h : Rooted holds m) {p q : List N} (hq : (m.get q).isSome) (hpq : p <+: q) (hne : p ≠ q)
    (hp : p ≠ []) : ∃ v, m.get p = some v ∧ holds v = true := by
  obtain ⟨s, rfl⟩ := hpq
  induction s using List.reverseRecOn with
  | nil => simp at hne
  | append_singleton s n ih =>
    rw [← List.append_assoc] at hq
    rcases h.parent _ _ hq with h0 | ⟨v, hv, hh⟩
    · exact absurd (List.append_eq_nil_iff.mp h0).1 hp
    · by_cases hs : s = []
      · subst hs
        rw [List.append_nil] at hv
        exact ⟨v, hv, hh⟩
      · exact ih (by rw [hv]; rfl) (by simpa using hs)

/-- An entry that may not hold others has none beneath it. -/
theorem Rooted.get_under_leaf (h : Rooted holds m) {p q : List N} {v : V} (hp : p ≠ []) (hv : m.get p = some v)
    (hl : holds v = false) (hpq : p <+: q) (hne : p ≠ q) : m.get q = none := by
  by_contra hq
  obtain ⟨w, hw, hh⟩ := h.ancestor (Option.isSome_iff_ne_none.mpr hq) hpq hne hp
  rw [hv, Option.some.injEq] at hw
  rw [← hw, hl] at hh
  cases hh

/-- Nothing lies beneath a path that has no entry. -/
theorem Rooted.get_under_none (h : Rooted holds m) {p q : List N} (hp : p ≠ []) (hv : m.get p = none)
    (hpq : p <+: q) : m.get q = none := by
  by_cases hne : p = q
  · exact hne ▸ hv
  · by_contra hq
    obtain ⟨w, hw, -⟩ := h.ancestor (Option.isSome_iff_ne_none.mpr hq) hpq hne hp
    rw [hv] at hw
    cases hw

/-- A change of values that keeps which entries exist and which may hold others keeps the map rooted. -/
theorem Rooted.congr {m' : PathMap N V} (h : Rooted holds m) (hc : ∀ p, (m'.get p).map holds = (m.get p).map holds) :
    Rooted holds m' := by
  refine ⟨by simpa [h.root] using hc [], fun p n hs => ?_⟩
  have hs' : (m.get (p ++ [n])).isSome := by
    have := hc (p ++ [n])
    rw [← Option.isSome_map, this, Option.isSome_map] at hs
    exact hs
  rcases h.parent p n hs' with h0 | ⟨v, hv, hh⟩
  · exact Or.inl h0
  · right
    have hc' := hc p
    rw [hv, Option.map_some, hh] at hc'
    obtain ⟨w, hw, hhw⟩ := Option.map_eq_some_iff.mp hc'
    exact ⟨w, hw, hhw⟩

theorem Rooted.modify (h : Rooted holds m) (p : List N) (f : V → V) (hf : ∀ v, holds (f v) = holds v) :
    Rooted holds (m.modify p f) := by
  refine h.congr (fun q => ?_)
  rw [get_modify]
  split
  · cases m.get q <;> simp [hf]
  · rfl

/-- A new entry under the root or under an entry that may hold others. -/
theorem Rooted.set (h : Rooted holds m) {p : List N} {n : N} (v : V)
    (hp : p = [] ∨ ∃ w, m.get p = some w ∧ holds w = true)
    (hv : holds v = true ∨ ∀ k, m.get (p ++ [n] ++ [k]) = none) : Rooted holds (m.set (p ++ [n]) v) := by
  have hne : p ≠ p ++ [n] := by
    intro e
    simpa using congrArg List.length e
  refine ⟨by rw [get_set, if_neg (by simp), h.root], fun q k hs => ?_⟩
  rw [get_set] at hs
  split at hs
  · rename_i he
    obtain ⟨rfl, rfl⟩ : q = p ∧ k = n := by simpa using List.append_inj' he rfl
    rw [get_set, if_neg hne]
    exact hp
  · rcases h.parent q k hs with h0 | ⟨w, hw, hh⟩
    · exact Or.inl h0
    · right
      rw [get_set]
      split
      · rename_i hqe
        subst hqe
        rcases hv with hv | hv
        · exact ⟨v, rfl, hv⟩
        · rw [hv k] at hs
          cases hs
      · exact ⟨w, hw, hh⟩

/-- Removing an entry that has none beneath it. -/
theorem Rooted.erase (h : Rooted holds m) {p : List N} (hl : ∀ n, m.get (p ++ [n]) = none) :
    Rooted holds (m.erase p) := by
  refine ⟨by rw [get_erase, h.root]; simp, fun q k hs => ?_⟩
  rw [get_erase] at hs
  split at hs
  · cases hs
  · rcases h.parent q k hs with h0 | ⟨w, hw, hh⟩
    · exact Or.inl h0
    · right
      rw [get_erase]
      split
      · rename_i hqe
        rw [hqe, hl k] at hs
        cases hs
      · exact ⟨w, hw, hh⟩

/-- Moving a subtree to a place under an entry that may hold others, and not inside itself. -/
theorem Rooted.move (h : Rooted holds m) {src dst : List N} {n : N} (hsrc : src ≠ [])
    (hin : ¬src <+: dst ++ [n]) (hd : dst = [] ∨ ∃ w, m.get dst = some w ∧ holds w = true) :
    Rooted holds (m.move src (dst ++ [n])) := by
  have hsd : ¬src <+: dst := fun hc => hin (hc.trans (List.prefix_append _ _))
  have hdd : ¬dst ++ [n] <+: dst := by
    intro hc
    have := hc.length_le
    simp at this
  refine ⟨?_, fun q k hs => ?_⟩
  · rw [get_move, if_neg (by simp), if_neg (by simpa using hsrc), h.root]
  · rw [get_move] at hs
    split at hs
    · rename_i hq
      by_cases he : q ++ [k] = dst ++ [n]
      · obtain ⟨rfl, rfl⟩ : q = dst ∧ k = n := by simpa using List.append_inj' he rfl
        rw [get_move, if_neg hdd, if_neg hsd]
        exact hd
      · obtain ⟨t, ht⟩ := hq
        rcases List.eq_nil_or_concat t with rfl | ⟨t', k', rfl⟩
        · exact absurd (by simpa using ht.symm) he
        · rw [List.concat_eq_append, ← List.append_assoc] at ht
          obtain ⟨rfl, -⟩ : dst ++ [n] ++ t' = q ∧ k' = k := by simpa using List.append_inj' ht rfl
          rw [get_move, if_pos ⟨t', rfl⟩]
          have hs' : (m.get (src ++ t' ++ [k])).isSome := by
            rwa [List.append_assoc _ t', List.drop_left, ← List.append_assoc] at hs
          rcases h.parent _ _ hs' with h0 | ⟨w, hw, hh⟩
          · exact absurd (List.append_eq_nil_iff.mp h0).1 hsrc
          · exact Or.inr ⟨w, by simpa using hw, hh⟩
    · rename_i hnd
      split at hs
      · cases hs
      · rename_i hns
        rcases h.parent q k hs with h0 | ⟨w, hw, hh⟩
        · exact Or.inl h0
        · right
          refine ⟨w, ?_, hh⟩
          rw [get_move, if_neg (fun hc => hnd (hc.trans (List.prefix_append _ _))),
            if_neg (fun hc => hns (hc.trans (List.prefix_append _ _))), hw]

end rooted

end PathMap

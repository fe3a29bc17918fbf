import TribiosVfs.Recovery

/-!
# Paths as texts

The functions of core/paths.cpp on the texts they take and return. On canonical texts they are the functions on segments that the model
of the engine works with, and the loops that climb from a path to the view root end for every text.
-/

namespace TribiosVfs

/-! ## The functions on texts -/

/-- The last loop of `normalize_relative`. -/
def joinSegments (segments : List Name) : Bytes :=
  segments.foldl (fun normalized taken => (if normalized = [] then normalized else normalized ++ [slash]) ++ taken) []

/-- `normalize_relative`. -/
def normalizeRelativeText (path : Bytes) : Bytes := joinSegments (normalizeRelative path)

/-- `relative.rfind('/')`. -/
def rfindSlash (relative : Bytes) : Option Nat := (List.range relative.length).reverse.find? (fun i => relative[i]? = some slash)

/-- `parent_of`. -/
def parentOfText (relative : Bytes) : Bytes :=
  match rfindSlash relative with
  | none => []
  | some at_ => relative.take at_

/-- `join_relative`. -/
def joinRelativeText (parent name : Bytes) : Bytes := if parent = [] then name else parent ++ slash :: name

theorem rfindSlash_some {relative : Bytes} {i : Nat} (h : rfindSlash relative = some i) : i < relative.length := by
  have := List.mem_of_find?_eq_some h
  rwa [List.mem_reverse, List.mem_range] at this

theorem parentOfText_length_lt {path : Bytes} (h : path ≠ []) : (parentOfText path).length < path.length := by
  have hpos := List.length_pos_of_ne_nil h
  unfold parentOfText
  split
  · exact hpos
  · rename_i i hi
    have := rfindSlash_some hi
    rw [List.length_take]
    omega

/-- The paths that a loop `for (path = p; !path.empty(); path = parent_of(path))` visits. -/
def climb (path : Bytes) : List Bytes :=
  if path = [] then [] else path :: climb (parentOfText path)
termination_by path.length
decreasing_by
  rename_i h
  exact parentOfText_length_lt h

/-! ## What is required of them -/

/-- What one segment does to the stack: empty and dot segments nothing, and a dot-dot takes the last one off, if there is one. -/
def resolveSegment (stack : List Name) (segment : Name) : List Name :=
  if segment = [] ∨ segment = dot then stack
  else if segment = dotdot then stack.dropLast
  else stack ++ [segment]

/-- The view root, or segments none of which is empty, dot or dot-dot. -/
def CanonicalText (path : Bytes) : Prop := path = [] ∨ ∀ s ∈ splitSlash path, s ≠ [] ∧ s ≠ dot ∧ s ≠ dotdot

namespace PathAux

theorem takeSegment_eq (stack : List Name) (segment : Name) : takeSegment stack segment = resolveSegment stack segment := by
  unfold takeSegment resolveSegment
  by_cases h1 : segment = [] ∨ segment = dot
  · have hne : segment ≠ dotdot := by
      rintro rfl
      revert h1
      decide
    rw [if_neg hne, if_pos h1, if_neg]
    tauto
  · rw [if_neg h1]
    by_cases h2 : segment = dotdot
    · rw [if_pos h2, if_pos h2]
    · rw [if_neg h2, if_neg h2, if_pos]
      tauto

/-- The accumulator of the loop is the beginning of the segment that the rest of the text goes on with. -/
theorem normalizeLoop_eq (path : Bytes) : ∀ (stack : List Name) (segment : Name), ∃ s rest, splitSlash path = s :: rest ∧
    normalizeLoop stack segment path = ((segment ++ s) :: rest).foldl resolveSegment stack := by
  induction path with
  | nil =>
    intro stack segment
    refine ⟨[], [], rfl, ?_⟩
    rw [normalizeLoop, takeSegment_eq, List.append_nil]
    rfl
  | cons c path ih =>
    intro stack segment
    by_cases hc : c = slash
    · obtain ⟨s, rest, hsplit, hloop⟩ := ih (takeSegment stack segment) []
      refine ⟨[], s :: rest, by rw [splitSlash, if_pos hc, hsplit], ?_⟩
      rw [normalizeLoop, if_pos hc, hloop, takeSegment_eq, List.append_nil, List.nil_append]
      rfl
    · obtain ⟨s, rest, hsplit, hloop⟩ := ih stack (segment ++ [c])
      refine ⟨c :: s, rest, ?_, ?_⟩
      · rw [splitSlash, if_neg hc, hsplit]
      · rw [normalizeLoop, if_neg hc, hloop, List.append_assoc, List.singleton_append]

theorem normalizeRelative_eq (path : Bytes) : normalizeRelative path = (splitSlash path).foldl resolveSegment [] := by
  obtain ⟨s, rest, hsplit, hloop⟩ := normalizeLoop_eq path [] []
  rw [normalizeRelative, hloop, hsplit, List.nil_append]

/-! ### Joins and splits -/

theorem text_concat {p : RelPath} (hp : p ≠ []) (n : Name) : RelPath.text (p ++ [n]) = p.text ++ slash :: n :=
  text_append hp (List.cons_ne_nil n [])

theorem joinSegments_eq {p : RelPath} (hp : p.Canonical) : joinSegments p = p.text := by
  induction p using List.reverseRecOn with
  | nil => rfl
  | append_singleton p n ih =>
    have hinit : RelPath.Canonical p := fun m hm => hp m (List.mem_append_left _ hm)
    rw [joinSegments, List.foldl_append, List.foldl_cons, List.foldl_nil]
    have hrest := ih hinit
    rw [joinSegments] at hrest
    rw [hrest]
    by_cases h0 : p = []
    · subst h0
      rfl
    · rw [if_neg (text_ne_nil hinit h0), text_concat h0, List.append_assoc]
      rfl

theorem normalizeRelativeText_eq (path : Bytes) : normalizeRelativeText path = (normalizeRelative path).text :=
  joinSegments_eq (normalizeRelative_canonical path)

theorem no_slash_of_mem_splitSlash {s : Name} {b : Bytes} (h : s ∈ splitSlash b) : slash ∉ s := by
  induction b generalizing s with
  | nil =>
    rw [splitSlash, List.mem_singleton] at h
    rw [h]
    exact List.not_mem_nil
  | cons c cs ih =>
    rw [splitSlash] at h
    split at h
    · rcases List.mem_cons.mp h with rfl | h
      · exact List.not_mem_nil
      · exact ih h
    · rename_i hc
      obtain ⟨t, rest, hs⟩ := List.exists_cons_of_ne_nil (splitSlash_ne_nil cs)
      rw [hs] at h
      have hmem : ∀ u ∈ t :: rest, slash ∉ u := fun u hu => ih (hs ▸ hu)
      rcases List.mem_cons.mp h with rfl | h
      · rw [List.mem_cons, not_or]
        exact ⟨fun e => hc e.symm, hmem t List.mem_cons_self⟩
      · exact hmem s (List.mem_cons_of_mem _ h)

/-- A canonical text is the text of a normalized path. -/
theorem canonicalText_iff (path : Bytes) : CanonicalText path ↔ ∃ p : RelPath, p.Canonical ∧ p.text = path := by
  constructor
  · rintro (rfl | h)
    · exact ⟨[], fun n hn => (nomatch hn), rfl⟩
    · refine ⟨splitSlash path, fun s hs => ?_, text_splitSlash path⟩
      obtain ⟨h0, h1, h2⟩ := h s hs
      exact ⟨h0, h1, h2, no_slash_of_mem_splitSlash hs⟩
  · rintro ⟨p, hp, rfl⟩
    by_cases h0 : p = []
    · subst h0
      exact Or.inl rfl
    · right
      rw [splitSlash_text (fun n hn => (hp n hn).no_slash) h0]
      intro s hs
      exact ⟨(hp s hs).ne_nil, (hp s hs).ne_dot, (hp s hs).ne_dotdot⟩

theorem fixed_iff (path : Bytes) : normalizeRelativeText path = path ↔ CanonicalText path := by
  rw [canonicalText_iff, normalizeRelativeText_eq]
  constructor
  · intro h
    exact ⟨_, normalizeRelative_canonical path, h⟩
  · rintro ⟨p, hp, rfl⟩
    rw [normalizeRelative_text hp]

/-! ### The parent of a path -/

theorem rfindSlash_eq_some {relative : Bytes} {i : Nat} (hi : relative[i]? = some slash)
    (hlast : ∀ j, i < j → relative[j]? ≠ some slash) : rfindSlash relative = some i := by
  have hlt : i < relative.length := by
    by_contra hge
    rw [List.getElem?_eq_none (by omega)] at hi
    cases hi
  obtain ⟨n, hn⟩ : ∃ n, relative.length = i + 1 + n := ⟨relative.length - (i + 1), by omega⟩
  have hrange : (List.range relative.length).reverse = ((List.range n).map (i + 1 + ·)).reverse ++ i :: (List.range i).reverse := by
    rw [hn, List.range_add, List.range_succ]
    simp
  rw [rfindSlash, hrange, List.find?_append, List.find?_cons]
  have hnone : ((List.range n).map (i + 1 + ·)).reverse.find? (fun j => relative[j]? = some slash) = none := by
    rw [List.find?_eq_none]
    intro j hj
    rw [List.mem_reverse, List.mem_map] at hj
    obtain ⟨m, -, rfl⟩ := hj
    simpa using hlast (i + 1 + m) (by omega)
  rw [hnone, hi]
  simp

/-- What stands before the last slash. -/
theorem parentOfText_append (parent : Bytes) {name : Name} (hn : slash ∉ name) : parentOfText (parent ++ slash :: name) = parent := by
  have hfound : rfindSlash (parent ++ slash :: name) = some parent.length := by
    refine rfindSlash_eq_some ?_ (fun j hj => ?_)
    · rw [List.getElem?_append_right (le_refl _), Nat.sub_self]
      rfl
    · obtain ⟨m, rfl⟩ : ∃ m, j = parent.length + (m + 1) := ⟨j - parent.length - 1, by omega⟩
      rw [List.getElem?_append_right (by omega), Nat.add_sub_cancel_left, List.getElem?_cons_succ]
      intro hm
      exact hn (List.mem_of_getElem? hm)
  rw [parentOfText, hfound]
  exact List.take_left

theorem parentOfText_segment {name : Name} (hn : slash ∉ name) : parentOfText name = [] := by
  have hnone : rfindSlash name = none := by
    rw [rfindSlash, List.find?_eq_none]
    intro i _
    simp only [decide_eq_true_eq]
    intro hi
    exact hn (List.mem_of_getElem? hi)
  rw [parentOfText, hnone]

/-- On canonical paths the functions on texts are the ones on segments. -/
theorem parentOfText_text {p : RelPath} (hp : p.Canonical) : parentOfText p.text = (parentOf p).text := by
  rcases List.eq_nil_or_concat p with rfl | ⟨q, n, rfl⟩
  · rfl
  · rw [List.concat_eq_append] at hp ⊢
    have hn := (hp n (List.mem_append_right _ (List.mem_singleton_self n))).no_slash
    rw [parentOf, List.dropLast_concat]
    by_cases h0 : q = []
    · subst h0
      exact parentOfText_segment hn
    · rw [text_concat h0]
      exact parentOfText_append _ hn

theorem joinRelativeText_text {p : RelPath} (hp : p.Canonical) (name : Name) :
    joinRelativeText p.text name = (joinRelative p name).text := by
  rw [joinRelativeText, joinRelative]
  by_cases h0 : p = []
  · subst h0
    rfl
  · rw [if_neg (text_ne_nil hp h0), text_concat h0]

/-! ### Climbing -/

theorem canonical_take {p : RelPath} (hp : p.Canonical) (n : Nat) : RelPath.Canonical (p.take n) :=
  fun m hm => hp m (List.mem_of_mem_take hm)

theorem iterate_parentOfText {p : RelPath} (hp : p.Canonical) (k : Nat) :
    parentOfText^[k] p.text = RelPath.text (p.take (p.length - k)) := by
  induction k with
  | zero => rw [Function.iterate_zero_apply, Nat.sub_zero, List.take_length]
  | succ k ih =>
    rw [Function.iterate_succ_apply', ih, parentOfText_text (canonical_take hp _), parentOf, List.dropLast_eq_take, List.take_take]
    congr 2
    rw [List.length_take]
    omega

theorem splitSlash_slash (a rest : Bytes) : splitSlash (a ++ slash :: rest) = splitSlash a ++ splitSlash rest := by
  induction a with
  | nil => simp [splitSlash]
  | cons c a ih =>
    rw [List.cons_append, splitSlash, splitSlash, ih]
    by_cases hc : c = slash
    · rw [if_pos hc, if_pos hc]
      rfl
    · rw [if_neg hc, if_neg hc]
      obtain ⟨s, more, hs⟩ := List.exists_cons_of_ne_nil (splitSlash_ne_nil a)
      rw [hs]
      rfl

/-- The texts before a slash of a canonical path are those of its proper ancestors below the view root. -/
theorem before_slash_iff {p : RelPath} (hp : p.Canonical) (hne : p ≠ []) (a : Bytes) :
    (∃ rest, p.text = a ++ slash :: rest) ↔ ∃ k, 0 < k ∧ k < p.length ∧ a = RelPath.text (p.take k) := by
  constructor
  · rintro ⟨rest, hrest⟩
    have hsplit : p = splitSlash a ++ splitSlash rest := by
      rw [← splitSlash_slash, ← hrest, splitSlash_text (fun n hn => (hp n hn).no_slash) hne]
    have ha := List.length_pos_of_ne_nil (splitSlash_ne_nil a)
    have hr := List.length_pos_of_ne_nil (splitSlash_ne_nil rest)
    refine ⟨(splitSlash a).length, ha, ?_, ?_⟩
    · rw [hsplit, List.length_append]
      omega
    · rw [hsplit, List.take_left, text_splitSlash]
  · rintro ⟨k, hpos, hlt, rfl⟩
    refine ⟨RelPath.text (p.drop k), ?_⟩
    rw [← text_append, List.take_append_drop]
    · intro h0
      have := congrArg List.length h0
      rw [List.length_take, List.length_nil] at this
      omega
    · intro h0
      have := congrArg List.length h0
      rw [List.length_drop, List.length_nil] at this
      omega

theorem climb_text {p : RelPath} (hp : p.Canonical) :
    climb p.text = ((List.range p.length).map (fun k => RelPath.text (p.take (k + 1)))).reverse := by
  induction p using List.reverseRecOn with
  | nil =>
    rw [climb]
    rfl
  | append_singleton q n ih =>
    have hinit : RelPath.Canonical q := fun m hm => hp m (List.mem_append_left _ hm)
    have hparent : parentOfText (RelPath.text (q ++ [n])) = RelPath.text q := by
      rw [parentOfText_text hp, parentOf, List.dropLast_concat]
    rw [climb, if_neg (text_ne_nil hp (by simp)), hparent, ih hinit, List.length_append, List.length_singleton, List.range_succ,
      List.map_append, List.reverse_append, List.map_cons, List.map_nil, List.reverse_singleton, List.singleton_append]
    congr 1
    · rw [List.take_of_length_le (by simp)]
    · refine congrArg List.reverse (List.map_congr_left (fun k hk => ?_))
      rw [List.mem_range] at hk
      rw [List.take_append_of_le_length (by omega)]

theorem mem_climb_text {p : RelPath} (hp : p.Canonical) (a : Bytes) :
    a ∈ climb p.text ↔ ∃ k, 0 < k ∧ k ≤ p.length ∧ a = RelPath.text (p.take k) := by
  rw [climb_text hp, List.mem_reverse, List.mem_map]
  constructor
  · rintro ⟨k, hk, rfl⟩
    rw [List.mem_range] at hk
    exact ⟨k + 1, by omega, hk, rfl⟩
  · rintro ⟨k, hpos, hle, rfl⟩
    refine ⟨k - 1, List.mem_range.mpr (by omega), ?_⟩
    rw [Nat.sub_add_cancel hpos]

theorem nodup_climb_text {p : RelPath} (hp : p.Canonical) : (climb p.text).Nodup := by
  rw [climb_text hp, List.nodup_reverse]
  refine List.Nodup.map_on (fun i hi j hj he => ?_) List.nodup_range
  rw [List.mem_range] at hi hj
  have := congrArg List.length (text_injective (canonical_take hp _) (canonical_take hp _) he)
  rw [List.length_take, List.length_take] at this
  omega

/-- The text of a canonical path begins and ends with segments, and these hold no slash. -/
theorem ends_text {p : RelPath} (hp : p.Canonical) : p.text.head? ≠ some slash ∧ p.text.getLast? ≠ some slash := by
  constructor
  · cases p with
    | nil => simp [RelPath.text]
    | cons s q =>
      have hs := hp s List.mem_cons_self
      obtain ⟨t, ht⟩ : ∃ t, RelPath.text (s :: q) = s ++ t := by
        cases q with
        | nil => exact ⟨[], by simp [RelPath.text]⟩
        | cons u q => exact ⟨slash :: RelPath.text (u :: q), rfl⟩
      obtain ⟨c, s', rfl⟩ := List.exists_cons_of_ne_nil hs.ne_nil
      rw [ht, List.cons_append, List.head?_cons, ne_eq, Option.some.injEq]
      intro hc
      exact hs.no_slash (hc ▸ List.mem_cons_self)
  · rcases List.eq_nil_or_concat p with rfl | ⟨q, n, rfl⟩
    · simp [RelPath.text]
    · rw [List.concat_eq_append] at hp ⊢
      have hn := hp n (List.mem_append_right _ (List.mem_singleton_self n))
      obtain ⟨t, ht⟩ : ∃ t, RelPath.text (q ++ [n]) = t ++ n := by
        by_cases h0 : q = []
        · exact ⟨[], by rw [h0]; rfl⟩
        · exact ⟨RelPath.text q ++ [slash], by rw [text_concat h0]; simp⟩
      rw [ht, List.getLast?_append_of_ne_nil _ hn.ne_nil]
      intro hlast
      exact hn.no_slash (List.mem_of_getLast? hlast)

/-- `base_is_visible` on texts: the loop climbs from the path and looks for a tombstone. -/
theorem baseIsVisible_climb {p : RelPath} (hp : p.Canonical) {tombstones : List RelPath} (ht : ∀ t ∈ tombstones, t.Canonical) :
    baseIsVisible tombstones p = (climb p.text).all (fun path => path ∉ tombstones.map RelPath.text) := by
  rw [Bool.eq_iff_iff, baseIsVisible, List.all_eq_true, List.all_eq_true]
  constructor
  · intro h a ha
    obtain ⟨k, hpos, hle, rfl⟩ := (mem_climb_text hp a).mp ha
    have hk := h (p.take k) (List.mem_inits _ _ |>.mpr (List.take_prefix k p))
    simp only [decide_eq_true_eq, List.mem_map, not_exists, not_and] at hk ⊢
    intro t htm heq
    obtain rfl := text_injective (ht t htm) (canonical_take hp k) heq
    rcases hk with hk | hk
    · have := congrArg List.length hk
      rw [List.length_take, List.length_nil] at this
      omega
    · exact hk htm
  · intro h a ha
    have hpre := (List.mem_inits _ _).mp ha
    have htake := List.prefix_iff_eq_take.mp hpre
    simp only [decide_eq_true_eq]
    by_cases h0 : a = []
    · exact Or.inl h0
    · right
      intro hmem
      have hin : RelPath.text a ∈ climb p.text :=
        (mem_climb_text hp _).mpr ⟨a.length, List.length_pos_of_ne_nil h0, hpre.length_le, congrArg RelPath.text htake⟩
      have := h _ hin
      simp only [decide_eq_true_eq] at this
      exact this (List.mem_map_of_mem hmem)

end PathAux

/-! ## Theorem: normalization is canonical and confining -/

/-- What `normalize_relative` returns for a text, which texts it returns as they are, and, for a canonical text below the view root, what
its parent, its last segment and its ancestors are. -/
theorem path_normalization (path : Bytes) :
    normalizeRelativeText path = RelPath.text ((splitSlash path).foldl resolveSegment []) ∧
    CanonicalText (normalizeRelativeText path) ∧
    (normalizeRelativeText path).head? ≠ some slash ∧ (normalizeRelativeText path).getLast? ≠ some slash ∧
    (normalizeRelativeText path = path ↔ CanonicalText path) ∧
    (∀ allowEmpty, validRecoveryRelativePath (RelPath.ofText path) allowEmpty = true ↔
      if path = [] then allowEmpty = true else CanonicalText path) ∧
    (CanonicalText path → path ≠ [] →
      (∃ name, (splitSlash path).getLast? = some name ∧ joinRelativeText (parentOfText path) name = path) ∧
      CanonicalText (parentOfText path) ∧ (parentOfText path).length < path.length ∧
      (∀ a, (∃ k, 0 < k ∧ parentOfText^[k] path = a) ↔ a = [] ∨ ∃ rest, path = a ++ slash :: rest) ∧
      (∀ a, a ∈ climb (parentOfText path) ↔ ∃ rest, path = a ++ slash :: rest) ∧
      (climb (parentOfText path)).Nodup) := by
  have hnormal := normalizeRelative_canonical path
  refine ⟨?_, ?_, ?_, ?_, PathAux.fixed_iff path, fun allowEmpty => ?_, fun hcanonical hne => ?_⟩
  · rw [PathAux.normalizeRelativeText_eq, PathAux.normalizeRelative_eq]
  · rw [PathAux.normalizeRelativeText_eq, PathAux.canonicalText_iff]
    exact ⟨_, hnormal, rfl⟩
  · rw [PathAux.normalizeRelativeText_eq]
    exact (PathAux.ends_text hnormal).1
  · rw [PathAux.normalizeRelativeText_eq]
    exact (PathAux.ends_text hnormal).2
  · rw [validRecoveryRelativePath, text_ofText, ← PathAux.normalizeRelativeText_eq]
    by_cases h0 : path = []
    · rw [if_pos h0, if_pos h0]
    · rw [if_neg h0, if_neg h0, decide_eq_true_eq]
      exact PathAux.fixed_iff path
  · obtain ⟨p, hp, rfl⟩ := (PathAux.canonicalText_iff path).mp hcanonical
    have hp0 : p ≠ [] := by
      rintro rfl
      exact hne rfl
    have hinit : (parentOf p).Canonical := fun m hm => hp m (List.dropLast_subset _ hm)
    have hparent := PathAux.parentOfText_text hp
    refine ⟨⟨p.getLast hp0, ?_, ?_⟩, ?_, parentOfText_length_lt hne, fun a => ?_, fun a => ?_, ?_⟩
    · rw [splitSlash_text (fun n hn => (hp n hn).no_slash) hp0, List.getLast?_eq_some_getLast hp0]
    · rw [hparent, PathAux.joinRelativeText_text hinit, joinRelative, parentOf, List.dropLast_append_getLast hp0]
    · rw [hparent, PathAux.canonicalText_iff]
      exact ⟨_, hinit, rfl⟩
    · rw [PathAux.before_slash_iff hp hp0]
      constructor
      · rintro ⟨k, hk, rfl⟩
        rw [PathAux.iterate_parentOfText hp]
        by_cases hall : p.length ≤ k
        · left
          rw [Nat.sub_eq_zero_of_le hall]
          rfl
        · exact Or.inr ⟨p.length - k, by omega, by omega, rfl⟩
      · rintro (rfl | ⟨k, hpos, hlt, rfl⟩)
        · refine ⟨p.length, List.length_pos_of_ne_nil hp0, ?_⟩
          rw [PathAux.iterate_parentOfText hp, Nat.sub_self]
          rfl
        · refine ⟨p.length - k, by omega, ?_⟩
          rw [PathAux.iterate_parentOfText hp, Nat.sub_sub_self hlt.le]
    · rw [hparent, PathAux.mem_climb_text hinit, PathAux.before_slash_iff hp hp0]
      have hlen : (parentOf p).length = p.length - 1 := List.length_dropLast
      have htake : ∀ k < p.length, (parentOf p).take k = p.take k := by
        intro k hk
        rw [parentOf, List.dropLast_eq_take, List.take_take]
        congr 1
        omega
      constructor
      · rintro ⟨k, hpos, hle, rfl⟩
        exact ⟨k, hpos, by omega, by rw [htake k (by omega)]⟩
      · rintro ⟨k, hpos, hlt, rfl⟩
        exact ⟨k, hpos, by omega, by rw [htake k hlt]⟩
    · rw [hparent]
      exact PathAux.nodup_climb_text hinit

/-- The path `a/b`. -/
theorem path_normalization_nested : CanonicalText [97, 47, 98] ∧ CanonicalText (parentOfText [97, 47, 98]) ∧
    ∀ a, a ∈ climb (parentOfText [97, 47, 98]) ↔ ∃ rest, [97, 47, 98] = a ++ slash :: rest :=
  have hcanonical : CanonicalText [97, 47, 98] := Or.inr (by decide)
  have h := (path_normalization [97, 47, 98]).2.2.2.2.2.2 hcanonical (by decide)
  ⟨hcanonical, h.2.1, h.2.2.2.2.1⟩

end TribiosVfs

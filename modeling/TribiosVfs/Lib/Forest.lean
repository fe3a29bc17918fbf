import Mathlib.Data.List.Infix
import Mathlib.Logic.Function.Basic

/-!
# Trees laid over one another

A tree is read as a function from paths to what is there. `overlay` lays one tree over another: what the upper one holds shows, and
elsewhere what the lower one holds, except where it is hidden. The laws say how the tree that shows changes with its layers: an
entry put into the upper layer shows, an entry taken out of it and hidden below is gone, and nothing else changes. The result is a
tree whenever both layers are trees and agree on the kind of what they share.
-/

/-- What is at each path. -/
abbrev Forest (N V : Type) := List N → Option V

namespace Forest

variable {N V K : Type} [DecidableEq N]

/-- The tree with other contents at one path. -/
def put (t : Forest N V) (p : List N) (v : Option V) : Forest N V := Function.update t p v

@[simp] theorem put_self (t : Forest N V) (p : List N) (v : Option V) : t.put p v p = v := Function.update_self _ _ _

@[simp] theorem put_of_ne (t : Forest N V) {p q : List N} (h : q ≠ p) (v : Option V) : t.put p v q = t q :=
  Function.update_of_ne h _ _

@[simp] theorem put_put (t : Forest N V) (p : List N) (v v' : Option V) : (t.put p v).put p v' = t.put p v' :=
  Function.update_idem _ _ _

/-- Putting back what is there changes nothing. -/
theorem put_eq_self {t : Forest N V} {p : List N} {v : Option V} (h : t p = v) : t.put p v = t := by
  rw [put, ← h, Function.update_eq_self]

/-- The tree with another one in the place of what is at and beneath a path. -/
def graft (t : Forest N V) (p : List N) (sub : Forest N V) : Forest N V :=
  fun q => if p <+: q then sub (q.drop p.length) else t q

@[simp] theorem graft_at (t sub : Forest N V) (p s : List N) : t.graft p sub (p ++ s) = sub s := by
  rw [graft, if_pos (List.prefix_append p s), List.drop_left]

@[simp] theorem graft_off (t sub : Forest N V) {p q : List N} (h : ¬p <+: q) : t.graft p sub q = t q := by
  rw [graft, if_neg h]

/-- A tree of one entry takes the place of an entry with nothing beneath. -/
theorem graft_leaf {t sub : Forest N V} {p : List N} (hs : ∀ s, s ≠ [] → sub s = none) (ht : ∀ s, s ≠ [] → t (p ++ s) = none) :
    t.graft p sub = t.put p (sub []) := by
  funext q
  by_cases hq : p <+: q
  · obtain ⟨s, rfl⟩ := hq
    rw [graft_at]
    by_cases h0 : s = []
    · rw [h0, List.append_nil, put_self]
    · rw [hs s h0, put_of_ne t (by simpa using h0), ht s h0]
  · rw [graft_off t sub hq, put_of_ne]
    rintro rfl
    exact hq (List.prefix_refl _)

/-- The tree with what is at and beneath a path moved to another place. -/
def move (t : Forest N V) (p p' : List N) : Forest N V := (t.graft p (fun _ => none)).graft p' (fun s => t (p ++ s))

@[simp] theorem move_self (t : Forest N V) (p : List N) : t.move p p = t := by
  funext q
  by_cases hq : p <+: q
  · obtain ⟨s, rfl⟩ := hq
    rw [move, graft_at]
  · rw [move, graft_off _ _ hq, graft_off _ _ hq]

/-- Every entry lies under one that may hold others. -/
def Grounded (holds : V → Prop) (t : Forest N V) : Prop := ∀ p n, (t (p ++ [n])).isSome → ∃ v, t p = some v ∧ holds v

section grounded

variable {holds : V → Prop} {t : Forest N V}

omit [DecidableEq N] in
/-- In a tree every proper ancestor of an entry may hold others. -/
theorem Grounded.ancestor (h : Grounded holds t) {p q : List N} (hq : (t q).isSome) (hpq : p <+: q) (hne : p ≠ q) :
    ∃ v, t p = some v ∧ holds v := by
  obtain ⟨s, rfl⟩ := hpq
  induction s using List.reverseRecOn with
  | nil => exact absurd (List.append_nil p).symm hne
  | append_singleton s n ih =>
    rw [← List.append_assoc] at hq
    obtain ⟨v, hv, hh⟩ := h _ _ hq
    by_cases hs : s = []
    · rw [hs, List.append_nil] at hv
      exact ⟨v, hv, hh⟩
    · exact ih (by rw [hv]; rfl) (by simpa using hs)

omit [DecidableEq N] in
/-- Nothing lies beneath what may not hold others. -/
theorem Grounded.none_beneath (h : Grounded holds t) {p q : List N} (hp : ∀ v, t p = some v → ¬holds v) (hpq : p <+: q)
    (hne : p ≠ q) : t q = none := by
  by_contra hq
  obtain ⟨v, hv, hh⟩ := h.ancestor (Option.isSome_iff_ne_none.mpr hq) hpq hne
  exact hp v hv hh

end grounded

/-! ## Layers -/

section layers

variable (upper lower : Forest N V) (hidden : List N → Prop) [DecidablePred hidden]

/-- The tree that shows. -/
def overlay : Forest N V := fun p => (upper p).or (if hidden p then none else lower p)

variable {upper lower hidden}

omit [DecidableEq N] in
theorem overlay_upper {p : List N} {v : V} (h : upper p = some v) : overlay upper lower hidden p = some v := by
  rw [overlay, h, Option.some_or]

omit [DecidableEq N] in
theorem overlay_lower {p : List N} (h : upper p = none) (hv : ¬hidden p) : overlay upper lower hidden p = lower p := by
  rw [overlay, h, Option.none_or, if_neg hv]

omit [DecidableEq N] in
theorem overlay_hidden {p : List N} (h : upper p = none) (hh : hidden p) : overlay upper lower hidden p = none := by
  rw [overlay, h, Option.none_or, if_pos hh]

omit [DecidableEq N] in
/-- Where nothing shows, the upper layer holds nothing, and the lower one nothing that is not hidden. -/
theorem overlay_eq_none {p : List N} : overlay upper lower hidden p = none ↔ upper p = none ∧ (hidden p ∨ lower p = none) := by
  unfold overlay
  rw [Option.or_eq_none_iff]
  by_cases h : hidden p <;> simp [h]

/-- What is put into the upper layer shows. -/
theorem overlay_put (p : List N) (v : V) : overlay (upper.put p (some v)) lower hidden = (overlay upper lower hidden).put p (some v) := by
  funext q
  by_cases hq : q = p
  · subst hq
    rw [put_self, overlay_upper (put_self _ _ _)]
  · rw [put_of_ne _ hq, overlay, overlay, put_of_ne _ hq]

/-- What is taken out of the upper layer is gone, if the lower layer shows nothing there, and nothing showed beneath. -/
theorem overlay_cut {hidden' : List N → Prop} [DecidablePred hidden'] {p : List N} (hgone : hidden' p ∨ lower p = none)
    (hbeneath : ∀ q, p <+: q → q ≠ p → overlay upper lower hidden q = none)
    (hmore : ∀ q, hidden q → hidden' q) (hless : ∀ q, hidden' q → hidden q ∨ p <+: q) :
    overlay (upper.put p none) lower hidden' = (overlay upper lower hidden).put p none := by
  funext q
  by_cases hq : q = p
  · subst hq
    rw [put_self, overlay_eq_none]
    exact ⟨put_self _ _ _, hgone⟩
  · rw [put_of_ne _ hq]
    by_cases hpq : p <+: q
    · have hnone := hbeneath q hpq hq
      rw [hnone]
      rw [overlay_eq_none] at hnone ⊢
      exact ⟨(put_of_ne _ hq _).trans hnone.1, hnone.2.imp_left (hmore q)⟩
    · have hsame : hidden' q ↔ hidden q := ⟨fun h => (hless q h).resolve_right hpq, hmore q⟩
      rw [overlay, overlay, put_of_ne _ hq]
      simp only [hsame]

/-! ## Layers that agree -/

variable (upper lower hidden) in
/-- Where the lower layer is not hidden, both layers hold things of one kind. -/
def Agree (kind : V → K) : Prop := ∀ p v v', upper p = some v → ¬hidden p → lower p = some v' → kind v = kind v'

section agree

variable {kind : V → K}

omit [DecidableEq N] in
/-- Layers that are trees show a tree, if what they hold agrees on what may hold others. -/
theorem grounded_overlay {holds : V → Prop} (hk : ∀ v v', kind v = kind v' → holds v → holds v') (ha : Agree upper lower hidden kind)
    (hu : Grounded holds upper) (hl : Grounded holds lower) (hd : ∀ p n, hidden p → hidden (p ++ [n])) :
    Grounded holds (overlay upper lower hidden) := by
  intro p n hs
  cases hn : upper (p ++ [n]) with
  | some v =>
    obtain ⟨v', hv', hh⟩ := hu p n (by rw [hn]; rfl)
    exact ⟨v', overlay_upper hv', hh⟩
  | none =>
    by_cases hv : hidden (p ++ [n])
    · rw [overlay_hidden hn hv] at hs
      cases hs
    · rw [overlay_lower hn hv] at hs
      obtain ⟨v', hv', hh⟩ := hl p n hs
      have hv : ¬hidden p := fun h => hv (hd p n h)
      cases hp : upper p with
      | none => exact ⟨v', by rw [overlay_lower hp hv, hv'], hh⟩
      | some v => exact ⟨v, overlay_upper hp, hk _ _ (ha p v v' hp hv hv').symm hh⟩

/-- An entry may be put where nothing shows, and in the place of one of its kind. -/
theorem Agree.put (ha : Agree upper lower hidden kind) {p : List N} {v : V}
    (h : ∀ v', overlay upper lower hidden p = some v' → kind v = kind v') : Agree (upper.put p (some v)) lower hidden kind := by
  intro q w w' hq hv hw'
  by_cases hqp : q = p
  · subst hqp
    rw [put_self, Option.some.injEq] at hq
    subst hq
    cases hu : upper q with
    | none => exact h w' (by rw [overlay_lower hu hv, hw'])
    | some v' => rw [h v' (overlay_upper hu), ha q v' w' hu hv hw']
  · rw [put_of_ne _ hqp] at hq
    exact ha q w w' hq hv hw'

omit [DecidablePred hidden] in
theorem Agree.cut (ha : Agree upper lower hidden kind) {hidden' : List N → Prop} [DecidablePred hidden'] (p : List N)
    (hmore : ∀ q, hidden q → hidden' q) : Agree (upper.put p none) lower hidden' kind := by
  intro q v v' hq hv hv'
  by_cases hqp : q = p
  · rw [hqp, put_self] at hq
    cases hq
  · rw [put_of_ne _ hqp] at hq
    exact ha q v v' hq (fun h => hv (hmore q h)) hv'

end agree

end layers

end Forest

import TribiosVfs.MetadataStore

/-!
# The rows the tombstone statements touch

`sqlAtOrUnder_iff`: on the text of a path without a NUL byte, the SQL predicate of both deletions is equality, or lying beneath
the path as LIKE compares texts. The deletion in memory compares their bytes.
-/

namespace TribiosVfs

open SqlText (chars charsFrom flush settle step fold special escape)

/-- A path lies beneath another as LIKE compares texts: decoded as UTF-8, ASCII letters without their case. -/
def LikeBeneath (root path : RelPath) : Prop := fold (chars (root.text ++ [slash])) <+: fold (chars path.text)

instance (root path : RelPath) : Decidable (LikeBeneath root path) := by unfold LikeBeneath; infer_instance

-- `A/b` lies beneath `a`, and the two bytes that spell no character are one to LIKE
example : LikeBeneath [[97]] [[65], [98]] ∧ LikeBeneath [[0xFF]] [[0xFE], [98]] ∧ ¬LikeBeneath [[97]] [[97, 98]] := by decide

/-! ## Escaped texts -/

/-- A byte with a meaning in a pattern. -/
def Wildcard (c : UInt8) : Prop := c = backslash ∨ c = percent ∨ c = underscore

instance (c : UInt8) : Decidable (Wildcard c) := by unfold Wildcard; infer_instance

theorem wildcard_ascii {c : UInt8} (h : Wildcard c) : c < 0x80 := by
  rcases h with rfl | rfl | rfl <;> decide

theorem special_toUInt32 {c : UInt8} : special backslash.toUInt32 c.toUInt32 ↔ Wildcard c := by
  have hinj : ∀ d : UInt8, c.toUInt32 = d.toUInt32 ↔ c = d := by
    intro d
    rw [← UInt32.toNat_inj, UInt8.toNat_toUInt32, UInt8.toNat_toUInt32, UInt8.toNat_inj]
  exact or_congr (hinj _) (or_congr (hinj percent) (hinj underscore))

/-- No sequence is read as a character with a meaning. -/
theorem not_special_settle (c : UInt32) : ¬special backslash.toUInt32 (settle c) := by
  intro h
  have hge := SqlText.settle_ge c
  rcases h with h | h | h
  all_goals
    rw [h] at hge
    exact absurd hge (by decide)

theorem escape_flush (pending : Option UInt32) : escape backslash.toUInt32 (flush pending) = flush pending := by
  cases pending with
  | none => rfl
  | some c => simp [flush, SqlText.escape, not_special_settle]

theorem escape_append (s t : List UInt32) : escape backslash.toUInt32 (s ++ t) =
    escape backslash.toUInt32 s ++ escape backslash.toUInt32 t := List.flatMap_append

/-- A byte that is no wildcard ends no character with a meaning. -/
theorem escape_step {c : UInt8} (hc : ¬Wildcard c) (pending : Option UInt32) :
    escape backslash.toUInt32 (step pending c).1 = (step pending c).1 := by
  have hopen : escape backslash.toUInt32 (SqlText.opening c).1 = (SqlText.opening c).1 := by
    unfold SqlText.opening
    split
    · simp [escape, special_toUInt32, hc]
    · rfl
  cases pending with
  | none => exact hopen
  | some k =>
    simp only [step]
    split
    · rfl
    · rw [← List.singleton_append, escape_append, hopen]
      exact congrArg (· ++ _) (escape_flush (some k))

theorem escapeLikeWildcards_cons (c : UInt8) (text : Bytes) : escapeLikeWildcards (c :: text) =
    (if Wildcard c then [backslash, c] else [c]) ++ escapeLikeWildcards text := rfl

theorem charsFrom_escape {b : UInt8} (hb : b < 0x80) (rest text : Bytes) : ∀ pending,
    charsFrom pending (escapeLikeWildcards text ++ b :: rest) =
      escape backslash.toUInt32 (charsFrom pending text) ++ b.toUInt32 :: chars rest := by
  induction text with
  | nil =>
    intro pending
    simp [escapeLikeWildcards, charsFrom, SqlText.step_ascii pending hb, escape_flush, chars]
  | cons c text ih =>
    intro pending
    rw [escapeLikeWildcards_cons]
    by_cases hc : Wildcard c
    · -- the escape byte ends an open sequence, as the wildcard itself does in the unescaped text
      have hesc : backslash < 0x80 := by decide
      have hone : ∀ l, escape backslash.toUInt32 (c.toUInt32 :: l) =
          backslash.toUInt32 :: c.toUInt32 :: escape backslash.toUInt32 l := by
        intro l
        simp [escape, special_toUInt32, hc]
      simp [hc, charsFrom, SqlText.step_ascii _ hesc, SqlText.step_ascii _ (wildcard_ascii hc), ih, escape_append,
        escape_flush, hone]
    · simp [hc, charsFrom, ih, escape_append, escape_step hc]

/-- Reading an escaped text is escaping the text read. -/
theorem chars_escapeLikeWildcards {b : UInt8} (hb : b < 0x80) (text rest : Bytes) :
    chars (escapeLikeWildcards text ++ b :: rest) =
      escape backslash.toUInt32 (chars text) ++ b.toUInt32 :: chars rest :=
  charsFrom_escape hb rest text none

theorem not_mem_escapeLikeWildcards {text : Bytes} (h : (0 : UInt8) ∉ text) : (0 : UInt8) ∉ escapeLikeWildcards text := by
  unfold escapeLikeWildcards
  rw [List.mem_flatMap]
  rintro ⟨c, hc, h0⟩
  have hne : (0 : UInt8) ≠ c := fun e => h (e ▸ hc)
  split at h0
  · simp only [List.mem_cons, List.not_mem_nil, or_false] at h0
    rcases h0 with h0 | h0
    · exact absurd h0 (by decide)
    · exact hne h0
  · exact hne (List.mem_singleton.mp h0)

theorem bindText_eq_self {p : RelPath} (hp : Ordinary p) : bindText p = p := by
  rw [bindText, cStr_eq_self (not_mem_text hp.2), ofText_text hp.1]

/-- The SQL predicate of the tombstone deletions, on a path without a NUL byte. -/
theorem sqlAtOrUnder_iff {root : RelPath} (hr : Ordinary root) (path : RelPath) :
    sqlAtOrUnder root path = true ↔ path = root ∨ LikeBeneath root path := by
  have h0 : (0 : UInt8) ∉ escapeLikeWildcards root.text ++ [slash, percent] := by
    rw [List.mem_append, not_or]
    exact ⟨not_mem_escapeLikeWildcards (not_mem_text hr.2), by decide⟩
  have hslash : slash < 0x80 := by decide
  -- the slash has no meaning in a pattern, so the pattern is an escaped text and a `%`
  have hpattern : chars (escapeLikeWildcards root.text ++ [slash, percent]) =
      escape backslash.toUInt32 (chars (root.text ++ [slash])) ++ [SqlText.anyRun] := by
    rw [chars_escapeLikeWildcards hslash, SqlText.chars_append_ascii hslash, escape_append, List.append_assoc]
    rfl
  rw [sqlAtOrUnder, Bool.or_eq_true, beq_iff_eq, bindText_eq_self hr, cStr_eq_self h0, hpattern,
    SqlText.likeMatch_escape_anyRun (by decide)]
  rfl

/-- Lying beneath a path is lying beneath it as LIKE compares. -/
theorem likeBeneath_of_isAtOrUnder {root path : RelPath} (h : isAtOrUnder root path = true) :
    path.text = root.text ∨ LikeBeneath root path := by
  rw [isAtOrUnder, Bool.or_eq_true, beq_iff_eq, List.isPrefixOf_iff_prefix] at h
  rcases h with h | ⟨t, ht⟩
  · exact Or.inl h
  · have hslash : slash < 0x80 := by decide
    refine Or.inr ⟨fold (chars t), ?_⟩
    rw [← ht, List.append_assoc, List.singleton_append, SqlText.chars_append_ascii hslash, SqlText.chars_append_ascii hslash]
    simp [fold, chars, charsFrom, flush]

/-- The deletion in memory and the SQL predicate agree on a path that LIKE alone does not bring beneath the other. -/
theorem sqlAtOrUnder_eq {root path : RelPath} (hr : Ordinary root) (hp : path.Canonical)
    (h : LikeBeneath root path → isAtOrUnder root path = true) : sqlAtOrUnder root path = isAtOrUnder root path := by
  rw [Bool.eq_iff_iff, sqlAtOrUnder_iff hr]
  constructor
  · rintro (rfl | hf)
    · simp [isAtOrUnder]
    · exact h hf
  · intro hu
    rcases likeBeneath_of_isAtOrUnder hu with ht | hf
    · exact Or.inl (text_injective hp hr.1 ht)
    · exact Or.inr hf

/-! ## Which tombstones a Workspace has -/

@[simp] theorem mem_loadWorkspaceTombstones {t : Tables} {workspace : Name} {p : RelPath} :
    p ∈ t.loadWorkspaceTombstones workspace ↔ (workspace, p) ∈ t.tombstones := by
  simp [Tables.loadWorkspaceTombstones]

theorem mem_insertTombstone {t : Tables} {workspace other : Name} {path p : RelPath} :
    (other, p) ∈ (t.insertTombstone workspace path).tombstones ↔
      (other, p) ∈ t.tombstones ∨ (other = workspace ∧ p = bindText path) := by
  unfold Tables.insertTombstone
  split
  · rename_i h
    constructor
    · exact Or.inl
    · rintro (h' | ⟨rfl, rfl⟩)
      · exact h'
      · exact h
  · simp

theorem mem_removeTombstonesUnder {t : Tables} {workspace other : Name} {path p : RelPath} :
    (other, p) ∈ (t.removeTombstonesUnder workspace path).tombstones ↔
      (other, p) ∈ t.tombstones ∧ (other = workspace → sqlAtOrUnder path p = false) := by
  unfold Tables.removeTombstonesUnder
  rw [List.mem_filter]
  by_cases h : other = workspace <;> simp [h]

/-- The tombstones after a finished record. -/
theorem mem_finishRecoveryOperation {t : Tables} {operation : RecoveryOperation} {other : Name} {p : RelPath} :
    (other, p) ∈ (t.finishRecoveryOperation operation).tombstones ↔
      ((other, p) ∈ t.tombstones ∨
        (operation.addPathTombstone = true ∧ other = operation.workspace ∧ p = bindText operation.path)) ∧
      (operation.dropTargetTombstones = true → other = operation.workspace → sqlAtOrUnder operation.target p = false) := by
  unfold Tables.finishRecoveryOperation Tables.abandonRecoveryOperation Tables.finishDrop Tables.finishInsert
  cases ha : operation.addPathTombstone <;> cases hd : operation.dropTargetTombstones <;>
    simp [mem_removeTombstonesUnder, mem_insertTombstone]

end TribiosVfs

import Mathlib.Data.List.Infix

/-!
# Texts as SQLite's LIKE reads them

`chars` is the UTF-8 reader of SQLite: it refuses nothing, and reads a byte that continues no character as itself and a sequence
that spells no character as U+FFFD. `likeMatch` compares texts read so, ASCII letters without their case.

* `chars_append_ascii`: the reading of a text divides at an ASCII byte.
* `likeMatch_escape`: a text whose wildcards are escaped matches itself and what folds like it, and nothing else.
-/

namespace SqlText

/-! ## Reading characters -/

/-- `sqlite3Utf8Trans1`: what the first byte of a sequence, from `0xC0` on, gives of its character. -/
def lead (b : UInt8) : UInt32 :=
  if b < 0xE0 then (b - 0xC0).toUInt32
  else if b < 0xF0 then (b - 0xE0).toUInt32
  else if b < 0xF8 then (b - 0xF0).toUInt32
  else if b < 0xFC then (b - 0xF8).toUInt32
  else if b = 0xFD then 1 else 0

/-- What a finished sequence is read as: an overlong spelling of an ASCII character, a surrogate, U+FFFE and U+FFFF are U+FFFD. -/
def settle (c : UInt32) : UInt32 :=
  if c < 0x80 ∨ c &&& 0xFFFFF800 = 0xD800 ∨ c &&& 0xFFFFFFFE = 0xFFFE then 0xFFFD else c

/-- The character of the sequence that is open, if one is. -/
def flush (pending : Option UInt32) : List UInt32 := (pending.map settle).toList

@[simp] theorem flush_none : flush none = [] := rfl

/-- A byte outside of a sequence is a character, or opens a sequence. -/
def opening (b : UInt8) : List UInt32 × Option UInt32 :=
  if b < 0xC0 then ([b.toUInt32], none) else ([], some (lead b))

/-- One byte more: the characters that end with it, and the sequence that is open after it. -/
def step (pending : Option UInt32) (b : UInt8) : List UInt32 × Option UInt32 :=
  match pending with
  | none => opening b
  | some c =>
    if 0x80 ≤ b ∧ b < 0xC0 then ([], some ((c <<< 6) + (b &&& 0x3F).toUInt32))
    else (settle c :: (opening b).1, (opening b).2)

/-- The characters of the rest of a text. -/
def charsFrom : Option UInt32 → List UInt8 → List UInt32
  | pending, [] => flush pending
  | pending, b :: text => (step pending b).1 ++ charsFrom (step pending b).2 text

/-- `sqlite3Utf8Read` until the text ends. -/
def chars (text : List UInt8) : List UInt32 := charsFrom none text

theorem settle_ge (c : UInt32) : 0x80 ≤ settle c := by
  unfold settle
  split
  · decide
  · rename_i h
    rw [not_or, UInt32.not_lt] at h
    exact h.1

theorem step_ascii (pending : Option UInt32) {b : UInt8} (h : b < 0x80) :
    step pending b = (flush pending ++ [b.toUInt32], none) := by
  have ho : opening b = ([b.toUInt32], none) := if_pos (UInt8.lt_of_lt_of_le h (by decide))
  have hc : ¬(0x80 ≤ b ∧ b < 0xC0) := fun hb => UInt8.not_le.mpr h hb.1
  cases pending with
  | none => exact ho
  | some c => simp [step, hc, ho, flush]

theorem charsFrom_append_ascii {b : UInt8} (h : b < 0x80) (t : List UInt8) (s : List UInt8) :
    ∀ pending, charsFrom pending (s ++ b :: t) = charsFrom pending s ++ b.toUInt32 :: chars t := by
  induction s with
  | nil =>
    intro pending
    simp [charsFrom, step_ascii pending h, chars]
  | cons c s ih =>
    intro pending
    simp [charsFrom, ih]

/-- The reading of a text divides at an ASCII byte. -/
theorem chars_append_ascii {b : UInt8} (h : b < 0x80) (s t : List UInt8) :
    chars (s ++ b :: t) = chars s ++ b.toUInt32 :: chars t :=
  charsFrom_append_ascii h t s none

/-! ## LIKE -/

/-- The character `%`. -/
def anyRun : UInt32 := 37
/-- The character `_`. -/
def anyOne : UInt32 := 95

/-- LIKE compares ASCII letters without their case. -/
def foldCase (c : UInt32) : UInt32 := if 65 ≤ c ∧ c ≤ 90 then c + 32 else c

/-- A text with its ASCII letters in lower case. -/
def fold (text : List UInt32) : List UInt32 := text.map foldCase

/-- `text LIKE pattern ESCAPE esc` on characters: `%` matches any of them, `_` any one, the escape character takes the next one
literally, and any other matches itself up to ASCII case. -/
def likeMatch (esc : UInt32) : List UInt32 → List UInt32 → Bool
  | [], text => text.isEmpty
  | c :: pattern, text =>
    if c = esc then
      match pattern, text with
      | d :: pattern', t :: text' => foldCase d == foldCase t && likeMatch esc pattern' text'
      | _, _ => false
    else if c = anyRun then text.tails.any (fun rest => likeMatch esc pattern rest)
    else match text with
      | [] => false
      | t :: text' => (c = anyOne || foldCase c == foldCase t) && likeMatch esc pattern text'

/-- The characters that mean something in a pattern. -/
def special (esc c : UInt32) : Prop := c = esc ∨ c = anyRun ∨ c = anyOne

instance (esc c : UInt32) : Decidable (special esc c) := by unfold special; infer_instance

/-- Every character with a meaning is escaped. -/
def escape (esc : UInt32) (text : List UInt32) : List UInt32 :=
  text.flatMap (fun c => if special esc c then [esc, c] else [c])

variable {esc : UInt32}

/-- A character that is no wildcard matches what folds like it. -/
theorem likeMatch_literal {c : UInt32} (hc : ¬special esc c) (pattern : List UInt32) (d : UInt32) (rest : List UInt32) :
    likeMatch esc (c :: pattern) (d :: rest) = (foldCase c == foldCase d && likeMatch esc pattern rest) := by
  rw [special, not_or, not_or] at hc
  rw [likeMatch.eq_def]
  simp only [if_neg hc.1, if_neg hc.2.1, decide_eq_false hc.2.2, Bool.false_or]

theorem likeMatch_literal_nil {c : UInt32} (hc : ¬special esc c) (pattern : List UInt32) :
    likeMatch esc (c :: pattern) [] = false := by
  rw [special, not_or, not_or] at hc
  rw [likeMatch.eq_def]
  simp only [if_neg hc.1, if_neg hc.2.1]

/-- So does an escaped character. -/
theorem likeMatch_escape_cons (c : UInt32) (pattern : List UInt32) (d : UInt32) (text rest : List UInt32) :
    likeMatch esc (escape esc (c :: text) ++ pattern) (d :: rest) =
      (foldCase c == foldCase d && likeMatch esc (escape esc text ++ pattern) rest) := by
  simp only [escape, List.flatMap_cons]
  by_cases hc : special esc c
  · simp [hc, likeMatch]
  · rw [if_neg hc]
    exact likeMatch_literal hc _ d rest

theorem likeMatch_escape_nil (c : UInt32) (pattern text : List UInt32) :
    likeMatch esc (escape esc (c :: text) ++ pattern) [] = false := by
  simp only [escape, List.flatMap_cons]
  by_cases hc : special esc c
  · simp [hc, likeMatch]
  · rw [if_neg hc]
    exact likeMatch_literal_nil hc _

/-- An escaped text is matched literally, up to case. -/
theorem likeMatch_escape (text : List UInt32) : ∀ pattern subject : List UInt32,
    likeMatch esc (escape esc text ++ pattern) subject = true ↔
      ∃ s t, subject = s ++ t ∧ fold s = fold text ∧ likeMatch esc pattern t = true := by
  induction text with
  | nil =>
    intro pattern subject
    constructor
    · exact fun h => ⟨[], subject, rfl, rfl, h⟩
    · rintro ⟨s, t, rfl, hs, ht⟩
      have : s = [] := by simpa [fold] using hs
      simpa [this, escape] using ht
  | cons c text ih =>
    intro pattern subject
    cases subject with
    | nil =>
      rw [likeMatch_escape_nil]
      constructor
      · exact fun h => by cases h
      · rintro ⟨s, t, hst, hs, -⟩
        have : s = [] := (List.append_eq_nil_iff.mp hst.symm).1
        subst this
        simp [fold] at hs
    | cons d rest =>
      rw [likeMatch_escape_cons, Bool.and_eq_true, beq_iff_eq, ih]
      constructor
      · rintro ⟨hd, s, t, rfl, hs, ht⟩
        exact ⟨d :: s, t, rfl, by simpa [fold, hd] using hs, ht⟩
      · rintro ⟨s, t, hst, hs, ht⟩
        cases s with
        | nil => simp [fold] at hs
        | cons e s =>
          rw [List.cons_append, List.cons.injEq] at hst
          obtain ⟨rfl, rfl⟩ := hst
          simp only [fold, List.map_cons, List.cons.injEq] at hs
          exact ⟨hs.1.symm, s, t, rfl, hs.2, ht⟩

/-- A last `%` matches every text. -/
theorem likeMatch_anyRun (he : esc ≠ anyRun) (text : List UInt32) : likeMatch esc [anyRun] text = true := by
  rw [likeMatch.eq_def]
  simp only [if_neg he.symm, if_true]
  exact List.any_eq_true.mpr ⟨[], (List.mem_tails _ _).mpr List.nil_suffix, rfl⟩

/-- An escaped text followed by `%` matches what begins with it, up to case. -/
theorem likeMatch_escape_anyRun (he : esc ≠ anyRun) (text subject : List UInt32) :
    likeMatch esc (escape esc text ++ [anyRun]) subject = true ↔ fold text <+: fold subject := by
  rw [likeMatch_escape]
  constructor
  · rintro ⟨s, t, rfl, hs, -⟩
    exact ⟨fold t, by rw [← hs, fold, fold, fold, List.map_append]⟩
  · rintro ⟨u, hu⟩
    obtain ⟨s, t, hst, hs, -⟩ := List.map_eq_append_iff.mp hu.symm
    exact ⟨s, t, hst, hs, likeMatch_anyRun he t⟩

end SqlText

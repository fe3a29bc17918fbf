import Mathlib.Data.List.Basic

/-!
# Globs

The tokens of a glob and the texts they match. Texts are divided into segments by a separator; `?`, a class and a run of stars stay
within a segment, and a whole-segment run passes any number of them.

* `Matches` is the language, by the constructors of a derivation, one for each kind of token.
* Each kind of token has its inversion lemma, which says what is left of the text for the tokens after it.
-/

namespace Glob

variable {α : Type}

/-- A token over bytes `α`; a class is a list of ranges, by their first and last byte. -/
inductive Token (α : Type) where
  | literal (byte : α)
  | anyByte
  | byteClass (negated : Bool) (ranges : List (α × α))
  | stars
  | segments
  | rest
  deriving DecidableEq, Repr

/-- Whether a byte lies in one of the ranges. -/
def inRanges [LE α] [DecidableLE α] (byte : α) (ranges : List (α × α)) : Bool :=
  ranges.any (fun range => range.1 ≤ byte && byte ≤ range.2)

/-- The language of a list of tokens. -/
inductive Matches [LE α] [DecidableLE α] (separator : α) : List (Token α) → List α → Prop where
  | nil : Matches separator [] []
  | literal {byte : α} {tokens : List (Token α)} {text : List α} : Matches separator tokens text →
      Matches separator (.literal byte :: tokens) (byte :: text)
  | anyByte {byte : α} {tokens : List (Token α)} {text : List α} : byte ≠ separator → Matches separator tokens text →
      Matches separator (.anyByte :: tokens) (byte :: text)
  | byteClass {byte : α} {negated : Bool} {ranges : List (α × α)} {tokens : List (Token α)} {text : List α} :
      byte ≠ separator → inRanges byte ranges ≠ negated → Matches separator tokens text →
      Matches separator (.byteClass negated ranges :: tokens) (byte :: text)
  | stars {run : List α} {tokens : List (Token α)} {text : List α} : separator ∉ run → Matches separator tokens text →
      Matches separator (.stars :: tokens) (run ++ text)
  | segments {passed : List (List α)} {tokens : List (Token α)} {text : List α} :
      (∀ segment ∈ passed, separator ∉ segment) → Matches separator tokens text →
      Matches separator (.segments :: tokens) (passed.flatMap (fun segment => segment ++ [separator]) ++ text)
  | rest {text : List α} : Matches separator [.rest] text

section inversion

variable [LE α] [DecidableLE α] {separator byte : α} {tokens : List (Token α)} {text : List α}

@[simp] theorem matches_nil : Matches separator [] text ↔ text = [] := by
  constructor
  · intro h
    cases h
    rfl
  · rintro rfl
    exact .nil

@[simp] theorem matches_rest : Matches separator [.rest] text := .rest

theorem matches_literal_cons {current : α} :
    Matches separator (.literal byte :: tokens) (current :: text) ↔ byte = current ∧ Matches separator tokens text := by
  constructor
  · intro h
    cases h with
    | literal h => exact ⟨rfl, h⟩
  · rintro ⟨rfl, h⟩
    exact .literal h

theorem matches_anyByte_cons : Matches separator (.anyByte :: tokens) (byte :: text) ↔
    byte ≠ separator ∧ Matches separator tokens text := by
  constructor
  · intro h
    cases h with
    | anyByte hne h => exact ⟨hne, h⟩
  · rintro ⟨hne, h⟩
    exact .anyByte hne h

theorem matches_byteClass_cons {negated : Bool} {ranges : List (α × α)} :
    Matches separator (.byteClass negated ranges :: tokens) (byte :: text) ↔
      byte ≠ separator ∧ inRanges byte ranges ≠ negated ∧ Matches separator tokens text := by
  constructor
  · intro h
    cases h with
    | byteClass hne hin h => exact ⟨hne, hin, h⟩
  · rintro ⟨hne, hin, h⟩
    exact .byteClass hne hin h

/-- A token for one byte matches nothing where the text has ended. -/
theorem not_matches_end {token : Token α} (h : token ≠ .stars ∧ token ≠ .segments ∧ token ≠ .rest) :
    ¬Matches separator (token :: tokens) [] := by
  intro hmatch
  generalize ht : ([] : List α) = text at hmatch
  cases hmatch with
  | literal => cases ht
  | anyByte => cases ht
  | byteClass => cases ht
  | stars => exact h.1 rfl
  | segments => exact h.2.1 rfl
  | rest => exact h.2.2 rfl

/-- A run of stars: the rest is matched from within the segment, or from its end. -/
theorem matches_stars : Matches separator (.stars :: tokens) text ↔
    ∃ n ≤ text.length, separator ∉ text.take n ∧ Matches separator tokens (text.drop n) := by
  constructor
  · intro h
    cases h with
    | @stars run _ text hrun h =>
      refine ⟨run.length, by simp, ?_, ?_⟩
      · rw [List.take_left]
        exact hrun
      · rw [List.drop_left]
        exact h
  · rintro ⟨n, -, hrun, h⟩
    have hstars := Matches.stars hrun h
    rw [List.take_append_drop] at hstars
    exact hstars

/-- A whole-segment run: the rest is matched from here, or from behind one of the separators that follow. -/
theorem matches_segments : Matches separator (.segments :: tokens) text ↔
    Matches separator tokens text ∨ ∃ n, text[n]? = some separator ∧ Matches separator tokens (text.drop (n + 1)) := by
  constructor
  · intro h
    cases h with
    | @segments passed _ text hpassed h =>
      rcases List.eq_nil_or_concat passed with rfl | ⟨earlier, last, rfl⟩
      · exact Or.inl h
      · refine Or.inr ⟨(earlier.flatMap (fun segment => segment ++ [separator])).length + last.length, ?_, ?_⟩
        · rw [List.concat_eq_append, List.flatMap_append, List.flatMap_singleton, List.append_assoc, List.append_assoc,
            List.getElem?_append_right (by omega), Nat.add_sub_cancel_left, List.getElem?_append_right (Nat.le_refl _), Nat.sub_self]
          rfl
        · have hlength : (earlier.flatMap (fun segment => segment ++ [separator])).length + last.length + 1 =
              ((earlier.concat last).flatMap (fun segment => segment ++ [separator])).length := by
            rw [List.concat_eq_append, List.flatMap_append, List.flatMap_singleton, List.length_append, List.length_append,
              List.length_singleton]
            omega
          rw [hlength, List.drop_left]
          exact h
  · rintro (h | ⟨n, hn, h⟩)
    · exact @Matches.segments _ _ _ _ [] _ _ (fun _ hsegment => by cases hsegment) h
    · -- what lies before the separator, divided into its segments
      have hdivide : ∀ before : List α, ∃ passed : List (List α), (∀ segment ∈ passed, separator ∉ segment) ∧
          passed.flatMap (fun segment => segment ++ [separator]) = before ++ [separator] := by
        classical
        intro before
        induction hlen : before.length using Nat.strongRecOn generalizing before with
        | ind m ih =>
          by_cases hmem : separator ∈ before
          · obtain ⟨first, others, rfl, hfirst⟩ := List.eq_append_cons_of_mem hmem
            obtain ⟨passed, hpassed, heq⟩ := ih others.length (by rw [← hlen]; simp; omega) others rfl
            refine ⟨first :: passed, ?_, ?_⟩
            · intro segment hsegment
              rcases List.mem_cons.mp hsegment with rfl | hsegment
              · exact hfirst
              · exact hpassed segment hsegment
            · rw [List.flatMap_cons, heq]
              simp
          · refine ⟨[before], ?_, by simp⟩
            intro segment hsegment
            rw [List.mem_singleton.mp hsegment]
            exact hmem
      obtain ⟨passed, hpassed, heq⟩ := hdivide (text.take n)
      have hsegments := Matches.segments hpassed h
      obtain ⟨hlt, hget⟩ := List.getElem?_eq_some_iff.mp hn
      have htake : text.take n ++ [separator] = text.take (n + 1) := by
        rw [List.take_add_one, hn]
        rfl
      rw [heq, htake, List.take_append_drop] at hsegments
      exact hsegments

end inversion

end Glob

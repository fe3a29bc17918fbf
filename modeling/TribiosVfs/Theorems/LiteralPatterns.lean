import TribiosVfs.Theorems.GlobMatching
import TribiosVfs.Theorems.PathNormalization
import TribiosVfs.Lemmas.Utf8

/-!
# Lines that name one path

A path written as a line of a policy: a slash, and the path with a backslash before every byte that a line gives a meaning to. Such a
line excludes that path and no other, alone and behind the lines of any policy.
-/

namespace TribiosVfs

open Glob

/-- The bytes a line of a policy gives a meaning to. -/
def quotedBytes : List UInt8 := [backslash, star, questionMark, openBracket, closeBracket, hash, exclamation, 32, 9]

/-- A byte, behind a backslash where a line gives it a meaning. -/
def quoteByte (c : UInt8) : Bytes := if c ∈ quotedBytes then [backslash, c] else [c]

/-- A text with its bytes quoted. -/
def quoteText (text : Bytes) : Bytes := text.flatMap quoteByte

/-- The line that names a path. -/
def literalLine (p : RelPath) : Bytes := slash :: quoteText p.text

/-- A path that a line can name: not the root, in UTF-8, without a NUL byte and without the bytes that end a line. -/
structure Nameable (p : RelPath) : Prop where
  canonical : p.Canonical
  ne_nil : p ≠ []
  utf8 : isValidUtf8 p.text = true
  nulFree : (0 : UInt8) ∉ p.text
  noNewline : newline ∉ p.text
  noReturn : carriageReturn ∉ p.text

/-- Lines as a text: each with a newline behind it, the last one only if `ended`. -/
def textOfLines (ended : Bool) : List Bytes → Bytes
  | [] => []
  | [line] => if ended then line ++ [newline] else line
  | line :: next :: lines => line ++ newline :: textOfLines ended (next :: lines)

/-- Lines appended to a policy, the first on a line of its own. -/
def appendLines (source : Bytes) (lines : List Bytes) (ended : Bool) : Bytes :=
  (if source = [] ∨ source.getLast? = some newline then source else source ++ [newline]) ++ textOfLines ended lines

namespace LiteralPatternsAux

/-! ## Quoted texts -/

@[simp] theorem quoteText_nil : quoteText [] = [] := rfl

theorem quoteText_cons (c : UInt8) (text : Bytes) : quoteText (c :: text) = quoteByte c ++ quoteText text := List.flatMap_cons

theorem quoteText_append (text others : Bytes) : quoteText (text ++ others) = quoteText text ++ quoteText others :=
  List.flatMap_append

theorem quoteText_concat (text : Bytes) (c : UInt8) : quoteText (text ++ [c]) = quoteText text ++ quoteByte c := by
  rw [quoteText_append, quoteText_cons, quoteText_nil, List.append_nil]

theorem mem_quoteText {b : UInt8} {text : Bytes} (h : b ∈ quoteText text) (hb : b ≠ backslash) : b ∈ text := by
  obtain ⟨c, hc, hmem⟩ := List.mem_flatMap.mp h
  rw [quoteByte] at hmem
  split at hmem
  · simp only [List.mem_cons, List.not_mem_nil, or_false] at hmem
    rw [hmem.resolve_left hb]
    exact hc
  · rw [List.mem_singleton.mp hmem]
    exact hc

theorem quoteText_ne_nil {text : Bytes} (h : text ≠ []) : quoteText text ≠ [] := by
  cases text with
  | nil => exact absurd rfl h
  | cons c text =>
    rw [quoteText_cons, quoteByte]
    split <;> simp

/-- The backslashes at the end of a quoted text come in pairs. -/
theorem backslashes_even (text : Bytes) : (((quoteText text).reverse ++ [slash]).takeWhile (· = backslash)).length % 2 = 0 := by
  induction text using List.reverseRecOn with
  | nil => decide
  | append_singleton text c ih =>
    rw [quoteText_concat, List.reverse_append, quoteByte]
    by_cases hc : c = backslash
    · subst hc
      rw [if_pos (by decide)]
      simp only [List.reverse_cons, List.reverse_nil, List.nil_append, List.cons_append, List.takeWhile_cons,
        decide_true, if_true, List.length_cons]
      omega
    · split
      · simp [hc]
      · simp [hc]

/-- No quoted text loses a byte when a line is trimmed. -/
theorem trim_literal (text : Bytes) : trimUnescapedTrailingWhitespace (slash :: quoteText text) = slash :: quoteText text := by
  have hkeep : trimReversed (slash :: quoteText text).reverse = (slash :: quoteText text).reverse := by
    rw [List.reverse_cons]
    rcases List.eq_nil_or_concat text with rfl | ⟨init, c, rfl⟩
    · decide
    · rw [List.concat_eq_append, quoteText_concat, List.reverse_append, quoteByte]
      by_cases hc : c = 32 ∨ c = 9
      · have hquoted : c ∈ quotedBytes := by
          rcases hc with rfl | rfl <;> decide
        rw [if_pos hquoted]
        have heven := backslashes_even init
        simp only [List.reverse_cons, List.reverse_nil, List.nil_append, List.cons_append]
        rw [trimReversed, if_neg]
        rintro ⟨-, hodd⟩
        rw [List.takeWhile_cons, if_pos (by simp), List.length_cons] at hodd
        omega
      · split
        · simp only [List.reverse_cons, List.reverse_nil, List.nil_append, List.cons_append]
          rw [trimReversed, if_neg (fun h => hc h.1)]
        · simp only [List.reverse_cons, List.reverse_nil, List.nil_append, List.cons_append]
          rw [trimReversed, if_neg (fun h => hc h.1)]
  rw [trimUnescapedTrailingWhitespace, hkeep, List.reverse_reverse]

/-- A quoted text passes `validate_glob`. -/
theorem validate_quoted {glob text : Bytes} {fuel index : Nat} (h : glob.drop index = quoteText text) :
    validateGlobFrom glob fuel index = none := by
  induction text generalizing fuel index with
  | nil =>
    cases fuel with
    | zero => rfl
    | succ fuel => rw [validateGlobFrom, ← List.head?_drop, h]; rfl
  | cons c text ih =>
    cases fuel with
    | zero => rfl
    | succ fuel =>
      rw [quoteText_cons, quoteByte] at h
      split at h
      · have hget : glob[index]? = some backslash := by rw [← List.head?_drop, h]; rfl
        have hget' : glob[index + 1]? = some c := by rw [← List.getElem?_drop, h]; rfl
        obtain ⟨hlt, -⟩ := drop_of_get hget'
        rw [validateGlobFrom, hget]
        dsimp only
        rw [if_pos rfl, if_neg (by omega)]
        apply ih
        rw [← List.drop_drop, h]
        rfl
      · rename_i hplain
        have hget : glob[index]? = some c := by rw [← List.head?_drop, h]; rfl
        rw [validateGlobFrom, hget]
        dsimp only
        rw [if_neg (fun hb => hplain (by rw [hb]; decide)), if_neg (fun hb => hplain (by rw [hb]; decide))]
        apply ih
        rw [← List.drop_drop, h]
        rfl

/-- The tokens of a quoted text are its bytes. -/
theorem tokenizes_quoted (text : Bytes) (startsSegment : Bool) :
    Tokenizes startsSegment (quoteText text) (text.map Token.literal) := by
  induction text generalizing startsSegment with
  | nil => exact .nil
  | cons c text ih =>
    rw [quoteText_cons, quoteByte, List.map_cons]
    split
    · exact .cons (nextToken_quoted startsSegment c (quoteText text)) (ih _)
    · rename_i hplain
      have hne : ∀ b ∈ quotedBytes, c ≠ b := by
        rintro b hb rfl
        exact hplain hb
      exact .cons (nextToken_other (hne star (by decide)) (hne questionMark (by decide)) (hne openBracket (by decide))
        (hne backslash (by decide)) startsSegment (quoteText text)) (ih _)

theorem matches_literals (text other : Bytes) : Matches slash (text.map Token.literal) other ↔ other = text := by
  induction text generalizing other with
  | nil => exact matches_nil
  | cons c text ih =>
    rw [List.map_cons]
    cases other with
    | nil => simpa using not_matches_end (by simp)
    | cons current other =>
      rw [matches_literal_cons, ih]
      constructor
      · rintro ⟨rfl, rfl⟩
        rfl
      · intro h
        obtain ⟨rfl, rfl⟩ := List.cons.inj h
        exact ⟨rfl, rfl⟩

theorem match_quoted (text other : Bytes) : matchCaptureGlob (quoteText text) other = true ↔ other = text := by
  have hat : TokensAt (quoteText text) 0 (text.map Token.literal) := ⟨Nat.zero_le _, tokenizes_quoted text true⟩
  rw [GlobMatchingAux.matchCaptureGlob_iff hat, matches_literals]

/-! ## The line of a path -/

theorem text_map_quote (p : RelPath) : quoteText p.text = RelPath.text (p.map quoteText) := by
  induction p with
  | nil => rfl
  | cons s p ih =>
    cases p with
    | nil => rfl
    | cons t p =>
      rw [RelPath.text, quoteText_append, quoteText_cons, ih]
      rfl

/-- The pattern of the line that names a path. -/
def literalPattern (p : RelPath) (number : Nat) : CapturePattern := ⟨literalLine p, number, quoteText p.text, false, false, true⟩

/-- The segments of a glob are all named: no slash is at its ends, and no two are in a row. -/
theorem no_empty_segment {glob : Bytes} (h : ∀ s ∈ splitSlash glob, s ≠ []) :
    glob.head? ≠ some slash ∧ glob.getLast? ≠ some slash ∧ hasEmptySegment glob = false := by
  have hhead : glob.head? ≠ some slash := by
    intro hhead
    obtain ⟨rest, rfl⟩ := List.head?_eq_some_iff.mp hhead
    exact h [] (by rw [splitSlash, if_pos rfl]; exact List.mem_cons_self) rfl
  have hlast : glob.getLast? ≠ some slash := by
    intro hlast
    obtain ⟨init, rfl⟩ := List.getLast?_eq_some_iff.mp hlast
    refine h [] ?_ rfl
    rw [PathAux.splitSlash_slash]
    exact List.mem_append_right _ (by rw [splitSlash]; exact List.mem_singleton_self [])
  refine ⟨hhead, hlast, ?_⟩
  simp only [hasEmptySegment, hhead, hlast, decide_false, Bool.false_or, List.any_eq_false, decide_eq_true_eq]
  exact h

theorem parse_literal {p : RelPath} (hp : Nameable p) (number : Nat) :
    parsePatternLine (literalLine p) number = .ok (some (literalPattern p number)) := by
  have hne := quoteText_ne_nil (text_ne_nil hp.canonical hp.ne_nil)
  have hsegments : ∀ s ∈ splitSlash (quoteText p.text), s ≠ [] := by
    rw [text_map_quote, splitSlash_text]
    · intro n hn
      obtain ⟨m, hm, rfl⟩ := List.mem_map.mp hn
      exact quoteText_ne_nil (hp.canonical m hm).ne_nil
    · intro n hn
      obtain ⟨m, hm, rfl⟩ := List.mem_map.mp hn
      exact fun h => (hp.canonical m hm).no_slash (mem_quoteText h (by decide))
    · simpa using hp.ne_nil
  obtain ⟨hhead, hlast, hempty⟩ := no_empty_segment hsegments
  have hend : (literalLine p).getLast? = (quoteText p.text).getLast? := by
    rw [literalLine, List.getLast?_cons, List.getLast?_eq_some_getLast hne, Option.getD_some]
  have hreturn : (literalLine p).getLast? ≠ some carriageReturn := by
    rw [hend]
    exact fun h => hp.noReturn (mem_quoteText (List.mem_of_getLast? h) (by decide))
  have hpattern : parsePattern (literalLine p) number = .ok (literalPattern p number) := by
    have hnotNegated : (literalLine p).head? ≠ some exclamation := by simp [literalLine, slash, exclamation]
    have hrooted : (literalLine p).head? = some slash := rfl
    rw [parsePattern]
    simp only [hnotNegated, decide_false, if_false]
    rw [hend]
    simp only [hlast, decide_false, if_false, hrooted, decide_true, if_true]
    rw [literalLine, List.drop_succ_cons, List.drop_zero, if_neg hne, hempty]
    simp only [Bool.false_eq_true, if_false, validateGlob, validate_quoted (List.drop_zero), Bool.true_or]
    rfl
  rw [parsePatternLine]
  dsimp only
  rw [if_neg hreturn, if_neg (by simp [literalLine, slash, hash]), literalLine, trim_literal, ← literalLine,
    if_neg (by simp [literalLine]), hpattern]
  rfl

theorem apply_literal {p q : RelPath} (hp : Nameable p) (hq : q.Canonical) (number : Nat) (isDirectory : Bool)
    (decision : CaptureDecision) : CapturePattern.apply q isDirectory decision (literalPattern p number) =
      if q = p then ⟨true, some (literalPattern p number)⟩ else decision := by
  have hmatch : matchCaptureGlob (quoteText p.text) q.text = true ↔ q = p := by
    rw [match_quoted]
    constructor
    · exact text_injective hq hp.canonical
    · rintro rfl
      rfl
  rw [CapturePattern.apply]
  simp only [literalPattern, Bool.false_and, Bool.false_eq_true, if_false, if_true, hmatch, Bool.not_false]

/-- The lines of paths parse, and what their patterns decide: the paths are excluded, of the others nothing changes. -/
theorem compile_literals {ps : List RelPath} (hps : ∀ p ∈ ps, Nameable p) (number : Nat) :
    ∃ patterns, compileLines number (ps.map literalLine) = .ok patterns ∧
      ∀ q : RelPath, q.Canonical → ∀ isDirectory decision,
        (q ∈ ps → (patterns.foldl (CapturePattern.apply q isDirectory) decision).excluded = true) ∧
        (q ∉ ps → patterns.foldl (CapturePattern.apply q isDirectory) decision = decision) := by
  induction ps generalizing number with
  | nil => exact ⟨[], rfl, fun q _ isDirectory decision => ⟨fun h => (by cases h), fun _ => rfl⟩⟩
  | cons p ps ih =>
    have hp := hps p List.mem_cons_self
    obtain ⟨patterns, hcompile, hdecide⟩ := ih (fun p' hp' => hps p' (List.mem_cons_of_mem _ hp')) (number + 1)
    refine ⟨literalPattern p number :: patterns, ?_, ?_⟩
    · rw [List.map_cons, compileLines, parse_literal hp]
      dsimp only
      rw [hcompile]
      rfl
    · intro q hq isDirectory decision
      rw [List.foldl_cons, apply_literal hp hq]
      obtain ⟨hin, hout⟩ := hdecide q hq isDirectory (if q = p then ⟨true, some (literalPattern p number)⟩ else decision)
      refine ⟨?_, ?_⟩
      · intro hmem
        by_cases hlater : q ∈ ps
        · exact hin hlater
        · rw [hout hlater, if_pos ((List.mem_cons.mp hmem).resolve_right hlater)]
      · intro hmem
        rw [List.mem_cons, not_or] at hmem
        rw [hout hmem.2, if_neg hmem.1]

theorem compileLines_append {lines others : List Bytes} {number : Nat} {patterns later : List CapturePattern}
    (h : compileLines number lines = .ok patterns) (hlater : compileLines (number + lines.length) others = .ok later) :
    compileLines number (lines ++ others) = .ok (patterns ++ later) := by
  induction lines generalizing number patterns with
  | nil =>
    cases h
    exact hlater
  | cons line lines ih =>
    rw [compileLines] at h
    rw [List.cons_append, compileLines]
    cases hparse : parsePatternLine line number with
    | error e =>
      rw [hparse] at h
      cases h
    | ok parsed =>
      rw [hparse] at h
      dsimp only at h ⊢
      cases hrest : compileLines (number + 1) lines with
      | error e =>
        rw [hrest] at h
        cases h
      | ok rest =>
        rw [hrest] at h
        cases h
        rw [ih hrest (by rw [List.length_cons, ← Nat.add_assoc, Nat.add_right_comm] at hlater; exact hlater)]
        simp [Except.map]

/-! ## Lines of a text -/

theorem splitOn_line {line : Bytes} (h : newline ∉ line) : line.splitOn newline = [line] := by
  apply List.splitOnP_eq_singleton
  intro c hc
  rw [beq_eq_false_iff_ne]
  rintro rfl
  exact h hc

theorem policyLines_newline (text rest : Bytes) :
    policyLines (text ++ newline :: rest) = text.splitOn newline ++ policyLines rest := by
  have hsplit : (text ++ newline :: rest).splitOn newline = text.splitOn newline ++ rest.splitOn newline :=
    List.splitOnP_append_cons text rest (by simp)
  have hne : rest.splitOn newline ≠ [] := List.splitOnP_ne_nil _ _
  rw [policyLines, policyLines, hsplit, List.getLast?_append_of_ne_nil _ hne]
  split
  · rw [List.dropLast_append_of_ne_nil hne]
  · rfl

/-- A text that ends in no newline ends in a line that is not empty. -/
theorem policyLines_open {text : Bytes} (hne : text ≠ []) (hlast : text.getLast? ≠ some newline) :
    policyLines text = text.splitOn newline := by
  rw [policyLines, if_neg]
  induction text with
  | nil => exact absurd rfl hne
  | cons c text ih =>
    have hcons : (c :: text).splitOn newline =
        if c == newline then [] :: text.splitOn newline else (text.splitOn newline).modifyHead (List.cons c) :=
      List.splitOnP_cons_eq_if_modifyHead c text
    have hsplit : text.splitOn newline ≠ [] := List.splitOnP_ne_nil _ _
    cases text with
    | nil =>
      have hc : c ≠ newline := fun h => hlast (by rw [h]; rfl)
      rw [splitOn_line (by simpa using hc.symm)]
      simp
    | cons d text =>
      have ih := ih (by simp) (by simpa using hlast)
      rw [hcons]
      split
      · rw [List.getLast?_cons_of_ne_nil hsplit]
        exact ih
      · obtain ⟨first, lines, hlines⟩ := List.exists_cons_of_ne_nil hsplit
        rw [hlines] at ih ⊢
        rw [List.modifyHead_cons]
        cases lines with
        | nil => simp
        | cons next lines => simpa using ih

theorem policyLines_textOfLines {lines : List Bytes} (h : ∀ line ∈ lines, line ≠ [] ∧ newline ∉ line) (ended : Bool) :
    policyLines (textOfLines ended lines) = lines := by
  induction lines with
  | nil => rfl
  | cons line lines ih =>
    obtain ⟨hne, hline⟩ := h line List.mem_cons_self
    cases lines with
    | nil =>
      rw [textOfLines]
      split
      · rw [policyLines_newline, splitOn_line hline]
        rfl
      · rw [policyLines_open hne (fun hlast => hline (List.mem_of_getLast? hlast)), splitOn_line hline]
    | cons next lines =>
      rw [textOfLines, policyLines_newline, splitOn_line hline, ih (fun l hl => h l (List.mem_cons_of_mem _ hl))]
      rfl

theorem policyLines_append (source : Bytes) {lines : List Bytes} (h : ∀ line ∈ lines, line ≠ [] ∧ newline ∉ line) (ended : Bool) :
    policyLines (appendLines source lines ended) = policyLines source ++ lines := by
  rw [appendLines]
  by_cases hempty : source = []
  · subst hempty
    rw [if_pos (Or.inl rfl), List.nil_append, policyLines_textOfLines h]
    rfl
  · by_cases hlast : source.getLast? = some newline
    · obtain ⟨init, rfl⟩ := List.getLast?_eq_some_iff.mp hlast
      rw [if_pos (Or.inr hlast), policyLines_newline, List.append_assoc, List.singleton_append, policyLines_newline,
        policyLines_textOfLines h]
      simp [policyLines]
    · rw [if_neg (by simp [hempty, hlast]), List.append_assoc, List.singleton_append, policyLines_newline,
        policyLines_textOfLines h, policyLines_open hempty hlast]

/-! ## UTF-8 -/

theorem utf8_append {text other : Bytes} (h : isValidUtf8 text = true) (h' : isValidUtf8 other = true) :
    isValidUtf8 (text ++ other) = true := by
  obtain ⟨chars, rfl⟩ := (isValidUtf8_iff text).mp h
  obtain ⟨others, rfl⟩ := (isValidUtf8_iff other).mp h'
  exact (isValidUtf8_iff _).mpr ⟨chars ++ others, (encodeUtf8_append chars others).symm⟩

theorem quoteText_plain {text : Bytes} (h : ∀ c ∈ text, c ∉ quotedBytes) : quoteText text = text := by
  induction text with
  | nil => rfl
  | cons c text ih =>
    rw [quoteText_cons, quoteByte, if_neg (h c List.mem_cons_self), ih (fun d hd => h d (List.mem_cons_of_mem _ hd))]
    rfl

theorem utf8_quoteChar (c : Char) : isValidUtf8 (quoteText (String.utf8EncodeChar c)) = true := by
  have hplain : quoteText (String.utf8EncodeChar c) = String.utf8EncodeChar c →
      isValidUtf8 (quoteText (String.utf8EncodeChar c)) = true := by
    intro h
    rw [h]
    exact (isValidUtf8_iff _).mpr ⟨[c], by rw [encodeUtf8_cons, encodeUtf8_nil, List.append_nil]⟩
  have hbytes : ∀ b ∈ quotedBytes, b < 0x80 := by
    intro b hb
    simp only [quotedBytes, List.mem_cons, List.not_mem_nil, or_false] at hb
    rcases hb with rfl | rfl | rfl | rfl | rfl | rfl | rfl | rfl | rfl <;> decide
  have hcontinuation : ∀ n, 0x80 ≤ n → n < 256 → UInt8.ofNat n ∉ quotedBytes := by
    intro n hn hlt hmem
    have hbyte := UInt8.lt_iff_toNat_lt.mp (hbytes _ hmem)
    rw [toNat_ofNat_byte hlt] at hbyte
    simp at hbyte
    omega
  rcases utf8EncodeChar_cases c with ⟨hle, he⟩ | ⟨-, -, he⟩ | ⟨-, -, he⟩ | ⟨-, he⟩
  · rw [he, quoteText_cons, quoteText_nil, List.append_nil, quoteByte]
    split
    · have hencode : String.utf8EncodeChar c = [UInt8.ofNat c.val.toNat] := he
      refine (isValidUtf8_iff _).mpr ⟨[Char.ofNat 92, c], ?_⟩
      rw [encodeUtf8_cons, encodeUtf8_cons, encodeUtf8_nil, hencode]
      rfl
    · refine (isValidUtf8_iff _).mpr ⟨[c], ?_⟩
      rw [encodeUtf8_cons, encodeUtf8_nil, he]
      rfl
  all_goals
    apply hplain
    apply quoteText_plain
    rw [he]
    intro b hb
    simp only [List.mem_cons, List.not_mem_nil, or_false] at hb
  · rcases hb with rfl | rfl <;> exact hcontinuation _ (by omega) (by omega)
  · rcases hb with rfl | rfl | rfl <;> exact hcontinuation _ (by omega) (by omega)
  · rcases hb with rfl | rfl | rfl | rfl <;> exact hcontinuation _ (by omega) (by omega)

theorem utf8_quote {text : Bytes} (h : isValidUtf8 text = true) : isValidUtf8 (quoteText text) = true := by
  obtain ⟨chars, rfl⟩ := (isValidUtf8_iff text).mp h
  induction chars with
  | nil => rfl
  | cons c chars ih =>
    rw [encodeUtf8_cons, quoteText_append]
    exact utf8_append (utf8_quoteChar c) (ih ((isValidUtf8_iff _).mpr ⟨chars, rfl⟩))

/-! ## The policy -/

theorem literalLine_spec {p : RelPath} (hp : Nameable p) :
    literalLine p ≠ [] ∧ newline ∉ literalLine p ∧ (0 : UInt8) ∉ literalLine p ∧ isValidUtf8 (literalLine p) = true := by
  refine ⟨by simp [literalLine], ?_, ?_, ?_⟩
  · intro h
    rcases List.mem_cons.mp h with h | h
    · cases h
    · exact hp.noNewline (mem_quoteText h (by decide))
  · intro h
    rcases List.mem_cons.mp h with h | h
    · cases h
    · exact hp.nulFree (mem_quoteText h (by decide))
  · exact @utf8_append [slash] _ (by decide) (utf8_quote hp.utf8)

/-- Lines that compile alone, put together, are free of NUL bytes and valid UTF-8. -/
theorem textOfLines_spec {lines : List Bytes} (h : ∀ line ∈ lines, (0 : UInt8) ∉ line ∧ isValidUtf8 line = true) (ended : Bool) :
    (0 : UInt8) ∉ textOfLines ended lines ∧ isValidUtf8 (textOfLines ended lines) = true := by
  have hnewline : isValidUtf8 [newline] = true := by decide
  induction lines with
  | nil => exact ⟨List.not_mem_nil, rfl⟩
  | cons line lines ih =>
    obtain ⟨hnul, hvalid⟩ := h line List.mem_cons_self
    cases lines with
    | nil =>
      rw [textOfLines]
      split
      · exact ⟨by simp [hnul, newline], utf8_append hvalid hnewline⟩
      · exact ⟨hnul, hvalid⟩
    | cons next lines =>
      obtain ⟨hnul', hvalid'⟩ := ih (fun l hl => h l (List.mem_cons_of_mem _ hl))
      rw [textOfLines]
      refine ⟨?_, utf8_append hvalid (utf8_append hnewline hvalid')⟩
      simp only [List.mem_append, List.mem_cons, not_or]
      exact ⟨hnul, by decide, hnul'⟩

/-- What compiling says of a source. -/
theorem compile_ok {source : Bytes} {policy : CapturePolicy} (h : CapturePolicy.compile source = .ok policy) :
    (0 : UInt8) ∉ source ∧ isValidUtf8 source = true ∧ compileLines 1 (policyLines source) = .ok policy.patterns := by
  rw [CapturePolicy.compile] at h
  split at h
  · cases h
  · rename_i hnul
    split at h
    · cases h
    · rename_i hvalid
      cases hlines : compileLines 1 (policyLines source) with
      | error e =>
        rw [hlines] at h
        cases h
      | ok patterns =>
        rw [hlines] at h
        cases h
        exact ⟨hnul, by simpa using hvalid, rfl⟩

theorem compile_of {source : Bytes} {patterns : List CapturePattern} (hnul : (0 : UInt8) ∉ source)
    (hvalid : isValidUtf8 source = true) (h : compileLines 1 (policyLines source) = .ok patterns) :
    CapturePolicy.compile source = .ok { present := true, source := source, patterns := patterns } := by
  rw [CapturePolicy.compile, if_neg hnul, if_neg (by simp [hvalid]), h]
  rfl

theorem append_literals {source : Bytes} {policy : CapturePolicy} (hpolicy : CapturePolicy.compile source = .ok policy)
    {ps : List RelPath} (hps : ∀ p ∈ ps, Nameable p) (ended : Bool) :
    ∃ policy', CapturePolicy.compile (appendLines source (ps.map literalLine) ended) = .ok policy' ∧
      ∀ q : RelPath, q.Canonical → ∀ isDirectory,
        (q ∈ ps → (policy'.decide q isDirectory).excluded = true) ∧
        (q ∉ ps → policy'.decide q isDirectory = policy.decide q isDirectory) := by
  obtain ⟨hnul, hvalid, hcompile⟩ := compile_ok hpolicy
  obtain ⟨patterns, hpatterns, hdecide⟩ := compile_literals hps (1 + (policyLines source).length)
  have hlines : ∀ line ∈ ps.map literalLine, line ≠ [] ∧ newline ∉ line ∧ (0 : UInt8) ∉ line ∧ isValidUtf8 line = true := by
    intro line hline
    obtain ⟨p, hp, rfl⟩ := List.mem_map.mp hline
    exact literalLine_spec (hps p hp)
  have happend := policyLines_append source (fun line hline => ⟨(hlines line hline).1, (hlines line hline).2.1⟩) ended
  obtain ⟨hnul', hvalid'⟩ := textOfLines_spec (fun line hline => (hlines line hline).2.2) ended
  have hbase : (0 : UInt8) ∉ (if source = [] ∨ source.getLast? = some newline then source else source ++ [newline]) ∧
      isValidUtf8 (if source = [] ∨ source.getLast? = some newline then source else source ++ [newline]) = true := by
    split
    · exact ⟨hnul, hvalid⟩
    · exact ⟨by simp [hnul, newline], utf8_append hvalid (by decide)⟩
  refine ⟨_, compile_of ?_ (utf8_append hbase.2 hvalid') (by rw [happend]; exact compileLines_append hcompile hpatterns), ?_⟩
  · rw [appendLines, List.mem_append, not_or]
    exact ⟨hbase.1, hnul'⟩
  · intro q hq isDirectory
    rw [CapturePolicy.decide, CapturePolicy.decide, List.foldl_append]
    exact hdecide q hq isDirectory _

end LiteralPatternsAux

open LiteralPatternsAux in
/-- The line of a path compiles alone and excludes that path and no other. Such lines appended to a policy that compiles exclude their
paths, and the decision on every other path stays as it was. -/
theorem literal_patterns :
    (∀ p, Nameable p → ∃ policy, CapturePolicy.compile (literalLine p) = .ok policy ∧
      ∀ q : RelPath, q.Canonical → ∀ isDirectory, (policy.decide q isDirectory).excluded = true ↔ q = p) ∧
    ∀ source policy, CapturePolicy.compile source = .ok policy → ∀ ps : List RelPath, (∀ p ∈ ps, Nameable p) → ∀ ended,
      ∃ policy', CapturePolicy.compile (appendLines source (ps.map literalLine) ended) = .ok policy' ∧
        ∀ q : RelPath, q.Canonical → ∀ isDirectory,
          (q ∈ ps → (policy'.decide q isDirectory).excluded = true) ∧
          (q ∉ ps → policy'.decide q isDirectory = policy.decide q isDirectory) := by
  refine ⟨?_, fun source policy hpolicy ps hps ended => append_literals hpolicy hps ended⟩
  intro p hp
  have hps : ∀ p' ∈ [p], Nameable p' := by
    intro p' hp'
    rw [List.mem_singleton.mp hp']
    exact hp
  -- a single line is what is appended to the empty policy
  obtain ⟨policy, hpolicy, hdecide⟩ := @append_literals [] { present := true } rfl _ hps false
  refine ⟨policy, hpolicy, ?_⟩
  intro q hq isDirectory
  obtain ⟨hin, hout⟩ := hdecide q hq isDirectory
  constructor
  · intro hexcluded
    by_contra hne
    rw [hout (by simpa using hne)] at hexcluded
    cases hexcluded
  · rintro rfl
    exact hin List.mem_cons_self

/-- A name with a star and a space at its end. -/
theorem literal_patterns_spaced : ∃ policy, CapturePolicy.compile (literalLine [[97, 42, 32]]) = .ok policy ∧
    ∀ q : RelPath, q.Canonical → ∀ isDirectory, (policy.decide q isDirectory).excluded = true ↔ q = [[97, 42, 32]] :=
  literal_patterns.1 [[97, 42, 32]] ⟨(by decide : Ordinary [[97, 42, 32]]).1, by decide, by decide, by decide, by decide, by decide⟩

end TribiosVfs

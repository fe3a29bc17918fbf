import TribiosVfs.CapturePolicy
import TribiosVfs.Lib.Glob

/-!
# The tokens of a glob

A glob read from left to right, as a text: what its next token is, and the whole of it as a list of tokens. The matcher and
`validate_glob` work on indices instead; the lemmas say what each of their steps finds at the token that begins at an index.
-/

namespace TribiosVfs

open Glob (Token inRanges Matches)

/-! ## Reading a glob -/

/-- The members of a class up to the bracket that closes it, each with whether a backslash quotes it, and what follows. -/
def classUnits : Bytes → Option (List (Bool × UInt8) × Bytes)
  | [] => none
  | c :: rest =>
    if c = closeBracket then some ([], rest)
    else if c = backslash then match rest with
      | [] => none
      | quoted :: rest => (classUnits rest).map (fun r => ((true, quoted) :: r.1, r.2))
    else (classUnits rest).map (fun r => ((false, c) :: r.1, r.2))

/-- The members of a class; a closing bracket in front of them is one. -/
def classBody : Bytes → Option (List (Bool × UInt8) × Bytes)
  | [] => none
  | c :: rest =>
    if c = closeBracket then (classUnits rest).map (fun r => ((false, c) :: r.1, r.2)) else classUnits (c :: rest)

/-- The ranges of a class: two members with an unquoted hyphen between them, or one member. -/
def classRanges : List (Bool × UInt8) → List (UInt8 × UInt8)
  | low :: middle :: high :: units =>
    if middle = (false, hyphen) then (low.2, high.2) :: classRanges units else (low.2, low.2) :: classRanges (middle :: high :: units)
  | unit :: units => (unit.2, unit.2) :: classRanges units
  | [] => []

/-- Whether the members of a class are negated. -/
def classNegated (text : Bytes) : Bool := text.head? = some exclamation || text.head? = some caret

/-- The class behind an opening bracket: negated or not, its ranges, and what follows it. -/
def parseClass (text : Bytes) : Option (Bool × List (UInt8 × UInt8) × Bytes) :=
  (classBody (if classNegated text then text.drop 1 else text)).map (fun r => (classNegated text, classRanges r.1, r.2))

/-- The next token of a glob, whether the start or a slash is before it being known; with it, whether its last byte is a slash,
and what follows. A whole-segment run takes the slash after it along. -/
def nextToken (startsSegment : Bool) : Bytes → Option (Token UInt8 × Bool × Bytes)
  | [] => none
  | c :: rest =>
    if c = star then match rest.dropWhile (· = star) with
      | [] => if rest.head? = some star ∧ startsSegment then some (.rest, false, []) else some (.stars, false, [])
      | d :: after =>
        if (rest.head? = some star ∧ startsSegment) ∧ d = slash then some (.segments, true, after)
        else some (.stars, false, d :: after)
    else if c = questionMark then some (.anyByte, false, rest)
    else if c = openBracket then (parseClass rest).map (fun r => (.byteClass r.1 r.2.1, false, r.2.2))
    else if c = backslash then match rest with
      | [] => none
      | quoted :: rest => some (.literal quoted, quoted = slash, rest)
    else some (.literal c, c = slash, rest)

theorem nextToken_star (startsSegment : Bool) (rest : Bytes) : nextToken startsSegment (star :: rest) =
    match rest.dropWhile (· = star) with
    | [] => if rest.head? = some star ∧ startsSegment then some (.rest, false, []) else some (.stars, false, [])
    | d :: after =>
      if (rest.head? = some star ∧ startsSegment) ∧ d = slash then some (.segments, true, after)
      else some (.stars, false, d :: after) := by
  rw [nextToken.eq_def]
  simp

theorem nextToken_open (startsSegment : Bool) (rest : Bytes) : nextToken startsSegment (openBracket :: rest) =
    (parseClass rest).map (fun r => (.byteClass r.1 r.2.1, false, r.2.2)) := by
  rw [nextToken.eq_def]
  simp [openBracket, star, questionMark]

theorem nextToken_quoted (startsSegment : Bool) (quoted : UInt8) (rest : Bytes) :
    nextToken startsSegment (backslash :: quoted :: rest) = some (.literal quoted, decide (quoted = slash), rest) := by
  rw [nextToken.eq_def]
  simp [backslash, openBracket, star, questionMark]

theorem nextToken_other {c : UInt8} (hstar : c ≠ star) (hquestion : c ≠ questionMark) (hopen : c ≠ openBracket)
    (hb : c ≠ backslash) (startsSegment : Bool) (rest : Bytes) :
    nextToken startsSegment (c :: rest) = some (.literal c, decide (c = slash), rest) := by
  rw [nextToken.eq_def]
  simp [hstar, hquestion, hopen, hb]

/-- The tokens of a glob, from left to right. -/
inductive Tokenizes : Bool → Bytes → List (Token UInt8) → Prop where
  | nil {startsSegment : Bool} : Tokenizes startsSegment [] []
  | cons {startsSegment endsSlash : Bool} {glob rest : Bytes} {token : Token UInt8} {tokens : List (Token UInt8)} :
      nextToken startsSegment glob = some (token, endsSlash, rest) → Tokenizes endsSlash rest tokens →
      Tokenizes startsSegment glob (token :: tokens)

namespace Tokenizes

theorem unique {startsSegment : Bool} {glob : Bytes} {tokens others : List (Token UInt8)}
    (h : Tokenizes startsSegment glob tokens) (h' : Tokenizes startsSegment glob others) : tokens = others := by
  induction h generalizing others with
  | nil =>
    cases h' with
    | nil => rfl
    | cons hnext => cases hnext
  | cons hnext _ ih =>
    cases h' with
    | nil => cases hnext
    | cons hnext' h' =>
      rw [hnext] at hnext'
      obtain ⟨rfl, rfl, rfl⟩ : _ ∧ _ ∧ _ := by simpa using hnext'
      rw [ih h']

theorem of_next {startsSegment endsSlash : Bool} {glob rest : Bytes} {token : Token UInt8} {tokens : List (Token UInt8)}
    (h : Tokenizes startsSegment glob tokens) (hnext : nextToken startsSegment glob = some (token, endsSlash, rest)) :
    ∃ later, tokens = token :: later ∧ Tokenizes endsSlash rest later := by
  cases h with
  | nil => cases hnext
  | @cons _ _ _ _ _ later hnext' h =>
    rw [hnext] at hnext'
    obtain ⟨rfl, rfl, rfl⟩ : _ ∧ _ ∧ _ := by simpa using hnext'
    exact ⟨later, rfl, h⟩

end Tokenizes

/-! ## Classes by index -/

/-- The bytes members of a class are spelled by. -/
def spelledUnits (units : List (Bool × UInt8)) : Bytes := units.flatMap (fun unit => if unit.1 then [backslash, unit.2] else [unit.2])

@[simp] theorem spelledUnits_nil : spelledUnits [] = [] := rfl

@[simp] theorem spelledUnits_quoted (byte : UInt8) (units : List (Bool × UInt8)) :
    spelledUnits ((true, byte) :: units) = backslash :: byte :: spelledUnits units := rfl

@[simp] theorem spelledUnits_plain (byte : UInt8) (units : List (Bool × UInt8)) :
    spelledUnits ((false, byte) :: units) = byte :: spelledUnits units := rfl

/-- An unquoted member is no backslash. -/
def ProperUnits (units : List (Bool × UInt8)) : Prop := (false, backslash) ∉ units

theorem classUnits_close (rest : Bytes) : classUnits (closeBracket :: rest) = some ([], rest) := by
  rw [classUnits.eq_def]
  simp

theorem classUnits_quoted (quoted : UInt8) (rest : Bytes) :
    classUnits (backslash :: quoted :: rest) = (classUnits rest).map (fun r => ((true, quoted) :: r.1, r.2)) := by
  rw [classUnits.eq_def]
  simp [backslash, closeBracket]

theorem classUnits_plain {c : UInt8} (hc : c ≠ closeBracket) (hb : c ≠ backslash) (rest : Bytes) :
    classUnits (c :: rest) = (classUnits rest).map (fun r => ((false, c) :: r.1, r.2)) := by
  rw [classUnits.eq_def]
  simp [hc, hb]

/-- What is read as members is spelled by them, and the closing bracket follows. -/
theorem classUnits_spelled {text rest : Bytes} {units : List (Bool × UInt8)} (h : classUnits text = some (units, rest)) :
    text = spelledUnits units ++ closeBracket :: rest ∧ ProperUnits units := by
  induction text using classUnits.induct generalizing units with
  | case1 => cases h
  | case2 rest' =>
    rw [classUnits_close] at h
    obtain ⟨rfl, rfl⟩ : _ ∧ _ := by simpa using h
    exact ⟨rfl, List.not_mem_nil⟩
  | case3 => simp [classUnits, backslash, closeBracket] at h
  | case4 _ quoted rest' ih =>
    rw [classUnits_quoted] at h
    obtain ⟨r, hr, heq⟩ := Option.map_eq_some_iff.mp h
    obtain ⟨rfl, rfl⟩ : _ ∧ _ := by simpa using heq
    obtain ⟨htext, hspelled⟩ := ih hr
    refine ⟨?_, ?_⟩
    · rw [spelledUnits_quoted, List.cons_append, List.cons_append, ← htext]
    · intro hmem
      rcases List.mem_cons.mp hmem with hhead | hmem
      · cases hhead
      · exact hspelled hmem
  | case5 c rest' hc hb ih =>
    rw [classUnits_plain hc hb] at h
    obtain ⟨r, hr, heq⟩ := Option.map_eq_some_iff.mp h
    obtain ⟨rfl, rfl⟩ : _ ∧ _ := by simpa using heq
    obtain ⟨htext, hspelled⟩ := ih hr
    refine ⟨?_, ?_⟩
    · rw [spelledUnits_plain, List.cons_append, ← htext]
    · intro hmem
      rcases List.mem_cons.mp hmem with hhead | hmem
      · exact hb (Prod.mk.inj hhead).2.symm
      · exact hspelled hmem

/-- The scan for the closing bracket stops where the members read from there end, and finds none where they have no end. -/
theorem scanClass_eq {glob : Bytes} {fuel index : Nat} (hfuel : glob.length < index + fuel) :
    scanClass glob fuel index = (classUnits (glob.drop index)).map (fun r => glob.length - r.2.length) := by
  induction fuel using Nat.strongRecOn generalizing index with
  | ind fuel ih =>
    cases fuel with
    | zero => rw [scanClass, List.drop_of_length_le (by omega)]; rfl
    | succ fuel =>
      rw [scanClass]
      cases hget : glob[index]? with
      | none =>
        rw [List.drop_of_length_le (List.getElem?_eq_none_iff.mp hget)]
        rfl
      | some c =>
        obtain ⟨hlt, hc⟩ := List.getElem?_eq_some_iff.mp hget
        have hdrop : glob.drop index = c :: glob.drop (index + 1) := by rw [List.drop_eq_getElem_cons hlt, hc]
        dsimp only
        rw [hdrop]
        by_cases hclose : c = closeBracket
        · subst hclose
          rw [if_pos rfl, classUnits_close]
          simp
          omega
        · rw [if_neg hclose]
          by_cases hb : c = backslash
          · subst hb
            rw [if_pos rfl, ih fuel (by omega) (by omega)]
            cases hquoted : glob.drop (index + 1) with
            | nil =>
              rw [List.drop_of_length_le (by have := List.drop_eq_nil_iff.mp hquoted; omega)]
              simp [classUnits, backslash, closeBracket]
            | cons quoted rest =>
              have hrest : glob.drop (index + 2) = rest := by
                rw [show index + 2 = index + 1 + 1 from rfl, ← List.drop_drop, hquoted]
                rfl
              rw [hrest, classUnits_quoted, Option.map_map]
              rfl
          · rw [if_neg hb, ih fuel (by omega) (by omega), classUnits_plain hclose hb, Option.map_map]
            rfl

theorem classBody_close (rest : Bytes) :
    classBody (closeBracket :: rest) = (classUnits rest).map (fun r => ((false, closeBracket) :: r.1, r.2)) := by
  rw [classBody, if_pos rfl]

theorem classBody_other {text : Bytes} (h : text.head? ≠ some closeBracket) : classBody text = classUnits text := by
  cases text with
  | nil => rfl
  | cons c rest =>
    rw [classBody, if_neg]
    rintro rfl
    exact h rfl

theorem classBody_spelled {text rest : Bytes} {units : List (Bool × UInt8)} (h : classBody text = some (units, rest)) :
    text = spelledUnits units ++ closeBracket :: rest ∧ ProperUnits units := by
  by_cases hhead : text.head? = some closeBracket
  · obtain ⟨tail, rfl⟩ : ∃ tail, text = closeBracket :: tail := by
      cases text with
      | nil => cases hhead
      | cons c tail => exact ⟨tail, by rw [Option.some.inj hhead]⟩
    rw [classBody_close] at h
    obtain ⟨r, hr, heq⟩ := Option.map_eq_some_iff.mp h
    obtain ⟨rfl, rfl⟩ : _ ∧ _ := by simpa using heq
    obtain ⟨htext, hspelled⟩ := classUnits_spelled hr
    refine ⟨?_, ?_⟩
    · rw [spelledUnits_plain, List.cons_append, ← htext]
    · intro hmem
      rcases List.mem_cons.mp hmem with hfirst | hmem
      · cases hfirst
      · exact hspelled hmem
  · rw [classBody_other hhead] at h
    exact classUnits_spelled h

/-- The index of the first member of a class, behind the bracket and the negation. -/
def firstMember (glob : Bytes) (opening : Nat) : Nat := if classNegated (glob.drop (opening + 1)) then opening + 2 else opening + 1

theorem classNegated_drop (glob : Bytes) (index : Nat) :
    classNegated (glob.drop index) = (decide (glob[index]? = some exclamation) || decide (glob[index]? = some caret)) := by
  rw [classNegated, List.head?_drop]

theorem drop_firstMember (glob : Bytes) (opening : Nat) :
    (if classNegated (glob.drop (opening + 1)) then (glob.drop (opening + 1)).drop 1 else glob.drop (opening + 1)) =
      glob.drop (firstMember glob opening) := by
  rw [firstMember]
  split
  · rw [List.drop_drop]
  · rfl

theorem findClassEnd_eq (glob : Bytes) (opening : Nat) :
    findClassEnd glob opening = (parseClass (glob.drop (opening + 1))).map (fun r => glob.length - r.2.2.length) := by
  have hfirst : (if glob[opening + 1]? = some exclamation ∨ glob[opening + 1]? = some caret then opening + 1 + 1 else opening + 1) =
      firstMember glob opening := by
    rw [firstMember, classNegated_drop]
    simp
  rw [findClassEnd, parseClass, drop_firstMember, hfirst, Option.map_map, ← List.head?_drop]
  split
  · rename_i hclose
    obtain ⟨tail, htail⟩ : ∃ tail, glob.drop (firstMember glob opening) = closeBracket :: tail := by
      cases hdrop : glob.drop (firstMember glob opening) with
      | nil => rw [hdrop] at hclose; cases hclose
      | cons c tail => rw [hdrop] at hclose; exact ⟨tail, by rw [Option.some.inj hclose]⟩
    have hnext : glob.drop (firstMember glob opening + 1) = tail := by
      rw [← List.drop_drop, htail]
      rfl
    rw [scanClass_eq (by omega), htail, classBody_close, hnext, Option.map_map]
    rfl
  · rename_i hclose
    rw [scanClass_eq (by omega), classBody_other hclose]
    rfl

/-! ## Tokens by index -/

/-- Whether the start or a slash is before an index. -/
def startsAt (glob : Bytes) (index : Nat) : Bool := index = 0 || glob[index - 1]? = some slash

/-- The tokens of a glob from an index on. -/
def TokensAt (glob : Bytes) (index : Nat) (tokens : List (Token UInt8)) : Prop :=
  index ≤ glob.length ∧ Tokenizes (startsAt glob index) (glob.drop index) tokens

namespace TokensAt

variable {glob : Bytes} {index : Nat} {tokens : List (Token UInt8)}

theorem unique {others : List (Token UInt8)} (h : TokensAt glob index tokens) (h' : TokensAt glob index others) : tokens = others :=
  h.2.unique h'.2

theorem at_end (h : TokensAt glob index tokens) (hget : glob[index]? = none) : tokens = [] := by
  obtain ⟨-, h⟩ := h
  rw [List.drop_of_length_le (List.getElem?_eq_none_iff.mp hget)] at h
  cases h with
  | nil => rfl
  | cons hnext => cases hnext

/-- The token read at an index, and the tokens from the index past it. -/
theorem step {past : Nat} {token : Token UInt8} (h : TokensAt glob index tokens) (hpast : past ≤ glob.length)
    (hnext : nextToken (startsAt glob index) (glob.drop index) = some (token, startsAt glob past, glob.drop past)) :
    ∃ later, tokens = token :: later ∧ TokensAt glob past later := by
  obtain ⟨later, rfl, hlater⟩ := h.2.of_next hnext
  exact ⟨later, rfl, hpast, hlater⟩

end TokensAt

theorem startsAt_succ {glob : Bytes} {index : Nat} {c : UInt8} (hget : glob[index]? = some c) :
    startsAt glob (index + 1) = decide (c = slash) := by
  rw [startsAt, Nat.add_sub_cancel, hget]
  simp

theorem drop_of_get {glob : Bytes} {index : Nat} {c : UInt8} (hget : glob[index]? = some c) :
    index < glob.length ∧ glob.drop index = c :: glob.drop (index + 1) := by
  obtain ⟨hlt, hc⟩ := List.getElem?_eq_some_iff.mp hget
  exact ⟨hlt, by rw [List.drop_eq_getElem_cons hlt, hc]⟩

/-- Past the end of a class: its members are spelled up to the closing bracket before the index. -/
theorem findClassEnd_spec {glob : Bytes} {opening past : Nat} (h : findClassEnd glob opening = some past) :
    opening < past ∧ past ≤ glob.length ∧ startsAt glob past = false ∧ ∃ units, ProperUnits units ∧
      glob.drop (firstMember glob opening) = spelledUnits units ++ closeBracket :: glob.drop past ∧
      parseClass (glob.drop (opening + 1)) = some (classNegated (glob.drop (opening + 1)), classRanges units, glob.drop past) := by
  rw [findClassEnd_eq, parseClass, drop_firstMember, Option.map_map] at h
  obtain ⟨⟨units, rest⟩, hbody, hpast⟩ := Option.map_eq_some_iff.mp h
  change glob.length - rest.length = past at hpast
  obtain ⟨hspell, hspelled⟩ := classBody_spelled hbody
  have hlength := congrArg List.length hspell
  rw [List.length_drop, List.length_append, List.length_cons] at hlength
  have hfirst : opening < firstMember glob opening := by
    rw [firstMember]
    split <;> omega
  have hrest : glob.drop past = rest := by
    have hbehind : (glob.drop (firstMember glob opening)).drop ((spelledUnits units).length + 1) = rest := by
      rw [hspell, ← List.drop_drop, List.drop_left]
      rfl
    rw [List.drop_drop] at hbehind
    rw [← hbehind, ← hpast]
    congr 1
    omega
  have hclose : glob[past - 1]? = some closeBracket := by
    have hget : (glob.drop (firstMember glob opening))[(spelledUnits units).length]? = some closeBracket := by
      rw [hspell, List.getElem?_append_right (le_refl _), Nat.sub_self]
      rfl
    rw [List.getElem?_drop] at hget
    rw [← hget, ← hpast]
    congr 1
    omega
  refine ⟨by omega, by omega, ?_, units, hspelled, ?_, ?_⟩
  · have hsucc := startsAt_succ hclose
    rw [show past - 1 + 1 = past by omega] at hsucc
    rw [hsucc]
    decide
  · rw [hrest]
    exact hspell
  · rw [parseClass, drop_firstMember, hbody, hrest]
    rfl

namespace TokensAt

variable {glob : Bytes} {index : Nat} {tokens : List (Token UInt8)}

theorem question (h : TokensAt glob index tokens) (hget : glob[index]? = some questionMark) :
    ∃ later, tokens = .anyByte :: later ∧ TokensAt glob (index + 1) later := by
  obtain ⟨hlt, hdrop⟩ := drop_of_get hget
  apply h.step hlt
  rw [hdrop, startsAt_succ hget]
  rfl

/-- A byte that stands for itself, quoted by a backslash or not. -/
theorem literal {c : UInt8} (h : TokensAt glob index tokens) (hget : glob[index]? = some c) (hstar : c ≠ star)
    (hquestion : c ≠ questionMark) (hopen : c ≠ openBracket) :
    ∃ byte later, glob[if c = backslash then index + 1 else index]? = some byte ∧ tokens = .literal byte :: later ∧
      TokensAt glob ((if c = backslash then index + 1 else index) + 1) later := by
  obtain ⟨hlt, hdrop⟩ := drop_of_get hget
  by_cases hb : c = backslash
  · subst hb
    rw [if_pos rfl]
    cases hquoted : glob[index + 1]? with
    | none =>
      have hend : glob.drop (index + 1) = [] := List.drop_of_length_le (List.getElem?_eq_none_iff.mp hquoted)
      obtain ⟨-, h⟩ := h
      rw [hdrop, hend] at h
      cases h with
      | cons hnext => simp [nextToken, backslash, star, questionMark, openBracket] at hnext
    | some quoted =>
      obtain ⟨hlt', hdrop'⟩ := drop_of_get hquoted
      obtain ⟨later, htokens, hlater⟩ := @TokensAt.step _ _ _ _ (.literal quoted) h hlt' (by
        rw [hdrop, hdrop', startsAt_succ hquoted, nextToken_quoted])
      exact ⟨quoted, later, rfl, htokens, hlater⟩
  · rw [if_neg hb]
    obtain ⟨later, htokens, hlater⟩ := @TokensAt.step _ _ _ _ (.literal c) h hlt (by
      rw [hdrop, startsAt_succ hget, nextToken_other hstar hquestion hopen hb])
    exact ⟨c, later, hget, htokens, hlater⟩

/-- A class: the index past it, and the members read there. -/
theorem byteClass (h : TokensAt glob index tokens) (hget : glob[index]? = some openBracket) :
    ∃ past units later, findClassEnd glob index = some past ∧ index < past ∧ ProperUnits units ∧
      glob.drop (firstMember glob index) = spelledUnits units ++ closeBracket :: glob.drop past ∧
      tokens = .byteClass (classNegated (glob.drop (index + 1))) (classRanges units) :: later ∧ TokensAt glob past later := by
  obtain ⟨-, hdrop⟩ := drop_of_get hget
  cases hfind : findClassEnd glob index with
  | none =>
    rw [findClassEnd_eq, Option.map_eq_none_iff] at hfind
    obtain ⟨-, h⟩ := h
    rw [hdrop] at h
    cases h with
    | cons hnext =>
      rw [nextToken_open, hfind] at hnext
      cases hnext
  | some past =>
    obtain ⟨hlt, hlength, hstarts, units, hspelled, hspell, hparse⟩ := findClassEnd_spec hfind
    obtain ⟨later, htokens, hlater⟩ := @TokensAt.step _ _ _ past
      (.byteClass (classNegated (glob.drop (index + 1))) (classRanges units)) h hlength (by
        rw [hdrop, nextToken_open, hparse, hstarts]
        rfl)
    exact ⟨past, units, later, rfl, hlt, hspelled, hspell, htokens, hlater⟩

end TokensAt

/-- Where the run of stars at an index ends. -/
def afterStars (glob : Bytes) (index : Nat) : Nat := index + ((glob.drop index).takeWhile (· = star)).length

theorem afterStars_spec {glob : Bytes} {index : Nat} (hget : glob[index]? = some star) :
    index < afterStars glob index ∧ afterStars glob index ≤ glob.length ∧
      glob.drop (afterStars glob index) = (glob.drop (index + 1)).dropWhile (· = star) ∧
      startsAt glob (afterStars glob index) = false ∧
      (2 ≤ afterStars glob index - index ↔ (glob.drop (index + 1)).head? = some star) := by
  obtain ⟨hlt, hdrop⟩ := drop_of_get hget
  have htake : (glob.drop index).takeWhile (· = star) = star :: (glob.drop (index + 1)).takeWhile (· = star) := by
    rw [hdrop, List.takeWhile_cons, if_pos (by simp)]
  have hafter : afterStars glob index = index + 1 + ((glob.drop (index + 1)).takeWhile (· = star)).length := by
    rw [afterStars, htake, List.length_cons]
    omega
  have hsplit := List.takeWhile_append_dropWhile (p := (· = star)) (l := glob.drop (index + 1))
  have hlength := congrArg List.length hsplit
  rw [List.length_append, List.length_drop] at hlength
  -- the last byte of the run is a star
  have hlast : glob[index + ((glob.drop (index + 1)).takeWhile (· = star)).length]? = some star := by
    have hrun : (glob.drop index).takeWhile (· = star) = List.replicate (((glob.drop index).takeWhile (· = star)).length) star := by
      apply List.eq_replicate_of_mem
      intro b hb
      simpa using List.mem_takeWhile_imp hb
    have hfull := List.takeWhile_append_dropWhile (p := (· = star)) (l := glob.drop index)
    rw [hrun, htake, List.length_cons] at hfull
    rw [← List.getElem?_drop, ← hfull, List.getElem?_append_left (by simp), List.getElem?_replicate, if_pos (by omega)]
  rw [hafter]
  refine ⟨by omega, by omega, ?_, ?_, ?_⟩
  · have hleft := @List.drop_left _ ((glob.drop (index + 1)).takeWhile (· = star)) ((glob.drop (index + 1)).dropWhile (· = star))
    rw [hsplit, List.drop_drop] at hleft
    exact hleft
  · rw [show index + 1 + ((glob.drop (index + 1)).takeWhile (· = star)).length =
      index + ((glob.drop (index + 1)).takeWhile (· = star)).length + 1 by omega, startsAt_succ hlast]
    decide
  · cases hrest : glob.drop (index + 1) with
    | nil => simp
    | cons d later =>
      rw [List.takeWhile_cons]
      by_cases hd : d = star
      · rw [if_pos (by simpa using hd), List.length_cons, hd]
        simp
        omega
      · rw [if_neg (by simpa using hd)]
        simp [hd]

namespace TokensAt

variable {glob : Bytes} {index : Nat} {tokens : List (Token UInt8)}

/-- Two stars or more that are a segment of their own, at the end. -/
theorem rest (h : TokensAt glob index tokens) (hget : glob[index]? = some star) (htwo : 2 ≤ afterStars glob index - index)
    (hstarts : startsAt glob index = true) (hend : afterStars glob index = glob.length) : tokens = [.rest] := by
  obtain ⟨-, -, hrest, -, hhead⟩ := afterStars_spec hget
  obtain ⟨-, hdrop⟩ := drop_of_get hget
  rw [hend, List.drop_length] at hrest
  obtain ⟨later, rfl, hlater⟩ := @Tokenizes.of_next _ false _ [] .rest _ h.2 (by
    rw [hdrop, nextToken_star, ← hrest]
    exact if_pos ⟨hhead.mp htwo, hstarts⟩)
  cases hlater with
  | nil => rfl
  | cons hnext => cases hnext

/-- Two stars or more that are a segment of their own, with a slash behind them. -/
theorem segments (h : TokensAt glob index tokens) (hget : glob[index]? = some star) (htwo : 2 ≤ afterStars glob index - index)
    (hstarts : startsAt glob index = true) (hslash : glob[afterStars glob index]? = some slash) :
    ∃ later, tokens = .segments :: later ∧ TokensAt glob (afterStars glob index + 1) later := by
  obtain ⟨-, -, hrest, -, hhead⟩ := afterStars_spec hget
  obtain ⟨-, hdrop⟩ := drop_of_get hget
  obtain ⟨hlt, hdrop'⟩ := drop_of_get hslash
  apply h.step hlt
  rw [hdrop, startsAt_succ hslash, nextToken_star, ← hrest, hdrop']
  exact if_pos ⟨⟨hhead.mp htwo, hstarts⟩, rfl⟩

/-- Any other run of stars. -/
theorem stars (h : TokensAt glob index tokens) (hget : glob[index]? = some star)
    (hnot : ¬(2 ≤ afterStars glob index - index ∧ startsAt glob index = true ∧
      (afterStars glob index = glob.length ∨ glob[afterStars glob index]? = some slash))) :
    ∃ later, tokens = .stars :: later ∧ TokensAt glob (afterStars glob index) later := by
  obtain ⟨hpast, hlength, hrest, hafter, hhead⟩ := afterStars_spec hget
  obtain ⟨-, hdrop⟩ := drop_of_get hget
  apply h.step hlength
  rw [hafter, hdrop, nextToken_star, ← hrest]
  cases hd : glob[afterStars glob index]? with
  | none =>
    have hle := List.getElem?_eq_none_iff.mp hd
    rw [List.drop_of_length_le hle]
    apply if_neg
    rintro ⟨htwo, hstarts⟩
    exact hnot ⟨hhead.mpr htwo, hstarts, Or.inl (by omega)⟩
  | some d =>
    rw [(drop_of_get hd).2]
    apply if_neg
    rintro ⟨⟨htwo, hstarts⟩, rfl⟩
    exact hnot ⟨hhead.mpr htwo, hstarts, Or.inr hd⟩

end TokensAt

/-! ## Validated globs -/

/-- A glob that passes `validate_glob` from an index on has its tokens from there, and from the end of the stars there. -/
theorem tokenizes_of_validated {glob : Bytes} {fuel index : Nat} (hfuel : glob.length < index + fuel)
    (hvalid : validateGlobFrom glob fuel index = none) : ∀ startsSegment,
      (∃ tokens, Tokenizes startsSegment (glob.drop index) tokens) ∧
      (∃ tokens, Tokenizes startsSegment ((glob.drop index).dropWhile (· = star)) tokens) := by
  induction fuel using Nat.strongRecOn generalizing index with
  | ind fuel ih =>
    intro startsSegment
    cases hget : glob[index]? with
    | none =>
      rw [List.drop_of_length_le (List.getElem?_eq_none_iff.mp hget)]
      exact ⟨⟨[], .nil⟩, ⟨[], .nil⟩⟩
    | some c =>
      obtain ⟨hlt, hdrop⟩ := drop_of_get hget
      cases fuel with
      | zero => omega
      | succ fuel =>
        rw [validateGlobFrom, hget] at hvalid
        dsimp only at hvalid
        rw [hdrop]
        by_cases hstar : c = star
        · subst hstar
          rw [if_neg (by decide), if_neg (by decide)] at hvalid
          obtain ⟨-, hskip⟩ := ih fuel (by omega) (by omega) hvalid startsSegment
          refine ⟨?_, ?_⟩
          · obtain ⟨tokens, htokens⟩ := (ih fuel (by omega) (by omega) hvalid false).2
            have hnext := nextToken_star startsSegment (glob.drop (index + 1))
            cases hrun : (glob.drop (index + 1)).dropWhile (· = star) with
            | nil =>
              rw [hrun] at hnext
              dsimp only at hnext
              split at hnext
              · exact ⟨_, .cons hnext .nil⟩
              · exact ⟨_, .cons hnext .nil⟩
            | cons d after =>
              rw [hrun] at hnext htokens
              dsimp only at hnext
              split at hnext
              · -- the slash behind a whole-segment run is a literal of its own when read alone
                rename_i hwhole
                obtain ⟨-, rfl⟩ := hwhole
                obtain ⟨later, -, hlater⟩ := htokens.of_next
                  (nextToken_other (by decide) (by decide) (by decide) (by decide) false after)
                exact ⟨_, .cons hnext hlater⟩
              · exact ⟨_, .cons hnext htokens⟩
          · rw [List.dropWhile_cons, if_pos (by simp)]
            exact hskip
        · rw [List.dropWhile_cons, if_neg (by simpa using hstar)]
          suffices ∃ tokens, Tokenizes startsSegment (c :: glob.drop (index + 1)) tokens from ⟨this, this⟩
          by_cases hb : c = backslash
          · subst hb
            rw [if_pos rfl] at hvalid
            split at hvalid
            · cases hvalid
            · rename_i hend
              have hlt' : index + 1 < glob.length := by omega
              obtain ⟨quoted, hquoted⟩ : ∃ quoted, glob[index + 1]? = some quoted := ⟨_, List.getElem?_eq_getElem hlt'⟩
              rw [(drop_of_get hquoted).2]
              obtain ⟨tokens, htokens⟩ := (ih fuel (by omega) (by omega) hvalid (decide (quoted = slash))).1
              exact ⟨_, .cons (nextToken_quoted startsSegment quoted _) htokens⟩
          · rw [if_neg hb] at hvalid
            by_cases hopen : c = openBracket
            · subst hopen
              rw [if_pos rfl] at hvalid
              cases hfind : findClassEnd glob index with
              | none =>
                rw [hfind] at hvalid
                cases hvalid
              | some past =>
                rw [hfind] at hvalid
                obtain ⟨hpast, -, -, units, -, -, hparse⟩ := findClassEnd_spec hfind
                obtain ⟨tokens, htokens⟩ := (ih fuel (by omega) (by omega) hvalid false).1
                have hnext := nextToken_open startsSegment (glob.drop (index + 1))
                rw [hparse] at hnext
                exact ⟨_, .cons hnext htokens⟩
            · rw [if_neg hopen] at hvalid
              by_cases hquestion : c = questionMark
              · subst hquestion
                obtain ⟨tokens, htokens⟩ := (ih fuel (by omega) (by omega) hvalid false).1
                exact ⟨.anyByte :: tokens, .cons rfl htokens⟩
              · obtain ⟨tokens, htokens⟩ := (ih fuel (by omega) (by omega) hvalid (decide (c = slash))).1
                exact ⟨_, .cons (nextToken_other hstar hquestion hopen hb startsSegment _) htokens⟩

end TribiosVfs

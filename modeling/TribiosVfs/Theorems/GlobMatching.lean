import TribiosVfs.Lemmas.GlobTokens

/-!
# The glob matcher and the language of its globs

`match_capture_glob` against `Matches`, the language of the glob's tokens. The matcher is stated a second time with every index
checked before it is read at and with the branches for malformed globs as failures; the two agree wherever that one answers, and on a
validated glob it always answers, with or without the memory of failures.
-/

namespace TribiosVfs

open Glob

/-! ## The matcher with its indices checked -/

/-- `class_matches`' loop; `none` where an index is outside the glob, and where the rounds run out. -/
def checkedMembers (glob : Bytes) (close : Nat) (byte : UInt8) : Nat → Nat → Option Bool
  | 0, _ => none
  | fuel + 1, index =>
    if close ≤ index then some false
    else
      let index := if byteAt glob index = backslash then index + 1 else index
      let low := byteAt glob index
      if glob.length ≤ index then none
      else
        let index := index + 1
        if index + 1 < close ∧ byteAt glob index = hyphen then
          let index := index + 1
          let index := if byteAt glob index = backslash ∧ index + 1 < close then index + 1 else index
          if glob.length ≤ index then none
          else (checkedMembers glob close byte fuel (index + 1)).map ((low ≤ byte && byte ≤ byteAt glob index) || ·)
        else (checkedMembers glob close byte fuel index).map ((low = byte) || ·)

/-- `class_matches`; `none` where an index is outside the glob. -/
def checkedClass (glob : Bytes) (opening past : Nat) (byte : UInt8) : Option Bool :=
  let negated := byteAt glob (opening + 1) = exclamation || byteAt glob (opening + 1) = caret
  if glob.length ≤ opening + 1 then none
  else (checkedMembers glob (past - 1) byte glob.length (if negated then opening + 2 else opening + 1)).map (· != negated)

/-- `tryStarts` for calls that may fail. -/
def checkedStarts (attempt : Nat → FailedStates → Option (Bool × FailedStates)) :
    List Nat → FailedStates → Option (Bool × FailedStates)
  | [], failed => some (false, failed)
  | start :: starts, failed => (attempt start failed).bind fun r => if r.1 then some (true, r.2) else checkedStarts attempt starts r.2

/-- `match_capture_glob_from`; `none` where an index is outside the glob, the text or the memory of failures, where a class or an
escape has no end, and where the rounds run out. The memory is read only if `reuse` says so. -/
def checkedMatchFrom (reuse : Bool) (glob text : Bytes) : Nat → Nat × Nat → Nat → Nat → FailedStates → Option (Bool × FailedStates)
  | 0, _, _, _, _ => none
  | fuel + 1, origin, globIndex, textIndex, failed =>
    let called := fun next start failed =>
      if glob.length < next ∨ text.length < start then none
      else if reuse ∧ (next, start) ∈ failed then some (false, failed)
      else checkedMatchFrom reuse glob text fuel (next, start) next start failed
    match glob[globIndex]? with
    | none => some (rememberFailure origin (textIndex = text.length, failed))
    | some c =>
      if c = star then
        if 2 ≤ afterStars glob globIndex - globIndex ∧ startsAt glob globIndex = true ∧
            (afterStars glob globIndex = glob.length ∨ glob[afterStars glob globIndex]? = some slash) then
          if afterStars glob globIndex = glob.length then some (true, failed)
          else (checkedStarts (called (afterStars glob globIndex + 1)) (segmentStarts text textIndex) failed).map
            (rememberFailure origin)
        else (checkedStarts (called (afterStars glob globIndex)) (starStarts text textIndex) failed).map (rememberFailure origin)
      else match text[textIndex]? with
        | none => some (rememberFailure origin (false, failed))
        | some current =>
          if c = questionMark then
            if current = slash then some (rememberFailure origin (false, failed))
            else checkedMatchFrom reuse glob text fuel origin (globIndex + 1) (textIndex + 1) failed
          else if c = openBracket then
            match findClassEnd glob globIndex with
            | none => none
            | some past => (checkedClass glob globIndex past current).bind fun belongs =>
              if current = slash ∨ belongs = false then some (rememberFailure origin (false, failed))
              else checkedMatchFrom reuse glob text fuel origin past (textIndex + 1) failed
          else
            let literal := if c = backslash then globIndex + 1 else globIndex
            (glob[literal]?).bind fun byte =>
              if byte = current then checkedMatchFrom reuse glob text fuel origin (literal + 1) (textIndex + 1) failed
              else some (rememberFailure origin (false, failed))

/-- `match_capture_glob`; `none` where `checkedMatchFrom` fails. -/
def checkedMatch (reuse : Bool) (glob text : Bytes) : Option Bool :=
  (checkedMatchFrom reuse glob text (glob.length + 1) (0, 0) 0 0 []).map (·.1)

namespace GlobMatchingAux

/-! ## Where the checked matcher answers, the matcher does -/

theorem members_of_checked {glob : Bytes} {close : Nat} {byte : UInt8} {fuel index : Nat} {answer : Bool}
    (h : checkedMembers glob close byte fuel index = some answer) : classMembers glob close byte fuel index = answer := by
  induction fuel generalizing index answer with
  | zero => cases h
  | succ fuel ih =>
    rw [checkedMembers] at h
    rw [classMembers]
    by_cases hclose : close ≤ index
    · rw [if_pos hclose] at h ⊢
      exact Option.some.inj h
    · rw [if_neg hclose] at h ⊢
      dsimp only at h ⊢
      generalize (if byteAt glob index = backslash then index + 1 else index) = index at h ⊢
      split at h
      · cases h
      · by_cases hrange : index + 1 + 1 < close ∧ byteAt glob (index + 1) = hyphen
        · rw [if_pos hrange] at h ⊢
          generalize (if byteAt glob (index + 1 + 1) = backslash ∧ index + 1 + 1 + 1 < close then index + 1 + 1 + 1
            else index + 1 + 1) = last at h ⊢
          split at h
          · cases h
          · obtain ⟨later, hlater, rfl⟩ := Option.map_eq_some_iff.mp h
            rw [ih hlater]
        · rw [if_neg hrange] at h ⊢
          obtain ⟨later, hlater, rfl⟩ := Option.map_eq_some_iff.mp h
          rw [ih hlater]

theorem class_of_checked {glob : Bytes} {opening past : Nat} {byte : UInt8} {answer : Bool}
    (h : checkedClass glob opening past byte = some answer) : classMatches glob opening past byte = answer := by
  rw [checkedClass] at h
  split at h
  · cases h
  · obtain ⟨members, hmembers, rfl⟩ := Option.map_eq_some_iff.mp h
    rw [classMatches, members_of_checked hmembers]

theorem starts_of_checked {attempt : Nat → FailedStates → Bool × FailedStates}
    {checked : Nat → FailedStates → Option (Bool × FailedStates)}
    (hcalls : ∀ start failed r, checked start failed = some r → attempt start failed = r) {starts : List Nat}
    {failed : FailedStates} {r : Bool × FailedStates} (h : checkedStarts checked starts failed = some r) :
    tryStarts attempt starts failed = r := by
  induction starts generalizing failed with
  | nil => exact Option.some.inj h
  | cons start starts ih =>
    rw [checkedStarts] at h
    obtain ⟨first, hfirst, h⟩ := Option.bind_eq_some_iff.mp h
    rw [tryStarts, hcalls start failed first hfirst]
    split at h
    · rename_i hanswer
      rw [if_pos hanswer]
      exact Option.some.inj h
    · rename_i hanswer
      rw [if_neg hanswer]
      exact ih h

theorem match_of_checked {glob text : Bytes} {fuel : Nat} {origin : Nat × Nat} {globIndex textIndex : Nat}
    {failed : FailedStates} {r : Bool × FailedStates}
    (h : checkedMatchFrom true glob text fuel origin globIndex textIndex failed = some r) :
    matchCaptureGlobFrom glob text fuel origin globIndex textIndex failed = r := by
  induction fuel generalizing origin globIndex textIndex failed r with
  | zero => cases h
  | succ fuel ih =>
    have hcalls : ∀ next start failed r,
        (if glob.length < next ∨ text.length < start then none
          else if true = true ∧ (next, start) ∈ failed then some (false, failed)
          else checkedMatchFrom true glob text fuel (next, start) next start failed) = some r →
        (if (next, start) ∈ failed then (false, failed)
          else matchCaptureGlobFrom glob text fuel (next, start) next start failed) = r := by
      intro next start failed r hr
      split at hr
      · cases hr
      · split at hr
        · rename_i hmem
          rw [if_pos hmem.2]
          exact Option.some.inj hr
        · rename_i hmem
          rw [if_neg (fun h => hmem ⟨rfl, h⟩)]
          exact ih hr
    rw [checkedMatchFrom] at h
    rw [matchCaptureGlobFrom]
    dsimp only at h ⊢
    cases hget : glob[globIndex]? with
    | none =>
      rw [hget] at h
      exact Option.some.inj h
    | some c =>
      rw [hget] at h
      dsimp only at h ⊢
      by_cases hstar : c = star
      · rw [if_pos hstar] at h ⊢
        by_cases hwhole : 2 ≤ afterStars glob globIndex - globIndex ∧ startsAt glob globIndex = true ∧
            (afterStars glob globIndex = glob.length ∨ glob[afterStars glob globIndex]? = some slash)
        · rw [if_pos hwhole] at h
          rw [if_pos (by simpa [startsAt, afterStars] using hwhole)]
          by_cases hend : afterStars glob globIndex = glob.length
          · rw [if_pos hend] at h
            exact (if_pos hend).trans (Option.some.inj h)
          · rw [if_neg hend] at h
            refine (if_neg hend).trans ?_
            obtain ⟨r, hr, rfl⟩ := Option.map_eq_some_iff.mp h
            exact congrArg _ (starts_of_checked (hcalls (afterStars glob globIndex + 1)) hr)
        · rw [if_neg hwhole] at h
          rw [if_neg (by simpa [startsAt, afterStars] using hwhole)]
          obtain ⟨r, hr, rfl⟩ := Option.map_eq_some_iff.mp h
          exact congrArg _ (starts_of_checked (hcalls (afterStars glob globIndex)) hr)
      · rw [if_neg hstar] at h ⊢
        cases htext : text[textIndex]? with
        | none =>
          rw [htext] at h
          exact Option.some.inj h
        | some current =>
          rw [htext] at h
          dsimp only at h ⊢
          by_cases hquestion : c = questionMark
          · rw [if_pos hquestion] at h ⊢
            split at h
            · rename_i hslash
              rw [if_pos hslash]
              exact Option.some.inj h
            · rename_i hslash
              rw [if_neg hslash]
              exact ih h
          · rw [if_neg hquestion] at h ⊢
            by_cases hopen : c = openBracket
            · rw [if_pos hopen] at h ⊢
              cases hfind : findClassEnd glob globIndex with
              | none =>
                rw [hfind] at h
                cases h
              | some past =>
                rw [hfind] at h
                dsimp only at h ⊢
                obtain ⟨belongs, hbelongs, h⟩ := Option.bind_eq_some_iff.mp h
                rw [class_of_checked hbelongs]
                split at h
                · rename_i hno
                  rw [if_pos hno]
                  exact Option.some.inj h
                · rename_i hno
                  rw [if_neg hno]
                  exact ih h
            · rw [if_neg hopen] at h ⊢
              obtain ⟨byte, hbyte, h⟩ := Option.bind_eq_some_iff.mp h
              rw [hbyte]
              split at h
              · rename_i hcurrent
                rw [if_pos (congrArg some hcurrent)]
                exact ih h
              · rename_i hcurrent
                rw [if_neg (fun h => hcurrent (Option.some.inj h))]
                exact Option.some.inj h

/-! ## Classes -/

/-- What the loop reads where a member of a class is spelled: the byte at the index, the member, and where the next one begins. -/
theorem member_at {glob tail : Bytes} {index : Nat} {unit : Bool × UInt8} {units : List (Bool × UInt8)}
    (hspell : glob.drop index = spelledUnits (unit :: units) ++ tail) (hspelled : ProperUnits (unit :: units)) :
    ∃ at', (at' = if byteAt glob index = backslash then index + 1 else index) ∧ byteAt glob at' = unit.2 ∧ at' < glob.length ∧
      glob.drop (at' + 1) = spelledUnits units ++ tail ∧ at' + 1 = index + (spelledUnits [unit]).length ∧
      (byteAt glob index = hyphen ↔ unit = (false, hyphen)) ∧ (byteAt glob index = backslash ↔ unit.1 = true) := by
  obtain ⟨quoted, byte⟩ := unit
  cases quoted with
  | true =>
    rw [spelledUnits_quoted] at hspell
    have hget : glob[index]? = some backslash := by rw [← List.head?_drop, hspell]; rfl
    have hget' : glob[index + 1]? = some byte := by rw [← List.getElem?_drop, hspell]; rfl
    have hat : byteAt glob index = backslash := by rw [byteAt, hget]; rfl
    refine ⟨index + 1, by rw [if_pos hat], by rw [byteAt, hget']; rfl, (drop_of_get hget').1, ?_, rfl, ?_, ?_⟩
    · rw [(drop_of_get hget).2, (drop_of_get hget').2] at hspell
      simpa using hspell
    · rw [hat]
      simp [backslash, hyphen]
    · simp [hat]
  | false =>
    rw [spelledUnits_plain] at hspell
    have hget : glob[index]? = some byte := by rw [← List.head?_drop, hspell]; rfl
    have hat : byteAt glob index = byte := by rw [byteAt, hget]; rfl
    have hne : byte ≠ backslash := by
      rintro rfl
      exact hspelled List.mem_cons_self
    refine ⟨index, by rw [hat, if_neg hne], hat, (drop_of_get hget).1, ?_, rfl, ?_, ?_⟩
    · rw [(drop_of_get hget).2] at hspell
      simpa using hspell
    · rw [hat]
      simp
    · rw [hat]
      simp [hne]

theorem spelledUnits_length_cons (unit : Bool × UInt8) (units : List (Bool × UInt8)) :
    (spelledUnits (unit :: units)).length = (spelledUnits [unit]).length + (spelledUnits units).length := by
  rw [spelledUnits, List.flatMap_cons, List.length_append, spelledUnits, spelledUnits, List.flatMap_singleton]

theorem spelledUnits_length_pos (unit : Bool × UInt8) :
    1 ≤ (spelledUnits [unit]).length ∧ (unit.1 = true → (spelledUnits [unit]).length = 2) ∧
      (unit.1 = false → (spelledUnits [unit]).length = 1) := by
  obtain ⟨quoted, byte⟩ := unit
  cases quoted <;> simp

/-- One member of a class is the range from itself to itself. -/
theorem inRanges_single (low byte : UInt8) (ranges : List (UInt8 × UInt8)) :
    inRanges byte ((low, low) :: ranges) = (decide (low = byte) || inRanges byte ranges) := by
  rw [inRanges, List.any_cons, inRanges]
  congr 1
  rw [Bool.eq_iff_iff]
  simp only [Bool.and_eq_true, decide_eq_true_eq]
  constructor
  · rintro ⟨h, h'⟩
    exact UInt8.le_antisymm h h'
  · rintro rfl
    exact ⟨UInt8.le_refl _, UInt8.le_refl _⟩

/-- The members of a class as the loop reads them are its ranges. -/
theorem checkedMembers_eq {glob rest : Bytes} {close : Nat} {byte : UInt8} {units : List (Bool × UInt8)} {fuel index : Nat}
    (hspell : glob.drop index = spelledUnits units ++ closeBracket :: rest) (hspelled : ProperUnits units)
    (hclose : close = index + (spelledUnits units).length) (hfuel : units.length < fuel) :
    checkedMembers glob close byte fuel index = some (inRanges byte (classRanges units)) := by
  induction units using classRanges.induct generalizing fuel index with
  | case1 low high units ih =>
    cases fuel with
    | zero => cases hfuel
    | succ fuel =>
      obtain ⟨at₁, hat₁, hlow, hlt₁, hspell₁, hnext₁, -, -⟩ := member_at hspell hspelled
      have hspelled₁ : ProperUnits ((false, hyphen) :: high :: units) := fun h => hspelled (List.mem_cons_of_mem _ h)
      obtain ⟨at₂, hat₂, hhyphen, -, hspell₂, hnext₂, -, hquoted₂⟩ := member_at hspell₁ hspelled₁
      rw [if_neg (fun h => by simpa using hquoted₂.mp h)] at hat₂
      subst hat₂
      have hspelled₂ : ProperUnits (high :: units) := fun h => hspelled₁ (List.mem_cons_of_mem _ h)
      obtain ⟨at₃, hat₃, hhigh, hlt₃, hspell₃, hnext₃, -, hquoted₃⟩ := member_at hspell₂ hspelled₂
      have hlength := spelledUnits_length_cons low ((false, hyphen) :: high :: units)
      have hlength₂ := spelledUnits_length_cons high units
      obtain ⟨hpos, -, -⟩ := spelledUnits_length_pos low
      obtain ⟨hpos', htwo, -⟩ := spelledUnits_length_pos high
      rw [spelledUnits_plain, List.length_cons] at hlength
      have hlast : (if byteAt glob (at₁ + 1 + 1) = backslash ∧ at₁ + 1 + 1 + 1 < close then at₁ + 1 + 1 + 1 else at₁ + 1 + 1) = at₃ := by
        rw [hat₃]
        split
        · rename_i h
          rw [if_pos h.1]
        · rename_i h
          rw [if_neg]
          intro hb
          have := htwo (hquoted₃.mp hb)
          exact h ⟨hb, by omega⟩
      rw [checkedMembers, if_neg (by omega)]
      dsimp only
      rw [← hat₁, if_neg (by omega), if_pos ⟨by omega, hhyphen⟩, hlast, if_neg (by omega),
        ih hspell₃ (fun h => hspelled₂ (List.mem_cons_of_mem _ h)) (by omega) (by simp only [List.length_cons] at hfuel; omega),
        hlow, hhigh, classRanges, if_pos rfl]
      rfl
  | case2 low middle high units hmiddle ih =>
    cases fuel with
    | zero => cases hfuel
    | succ fuel =>
      obtain ⟨at₁, hat₁, hlow, hlt₁, hspell₁, hnext₁, -, -⟩ := member_at hspell hspelled
      have hspelled₁ : ProperUnits (middle :: high :: units) := fun h => hspelled (List.mem_cons_of_mem _ h)
      obtain ⟨-, -, -, -, -, -, hhyphen, -⟩ := member_at hspell₁ hspelled₁
      have hlength := spelledUnits_length_cons low (middle :: high :: units)
      obtain ⟨hpos, -, -⟩ := spelledUnits_length_pos low
      rw [checkedMembers, if_neg (by omega)]
      dsimp only
      rw [← hat₁, if_neg (by omega), if_neg (fun h => hmiddle (hhyphen.mp h.2)),
        ih hspell₁ hspelled₁ (by omega) (by simp only [List.length_cons] at hfuel ⊢; omega), hlow, classRanges, if_neg hmiddle,
        inRanges_single]
      rfl
  | case3 unit units hshort ih =>
    cases fuel with
    | zero => cases hfuel
    | succ fuel =>
      obtain ⟨at₁, hat₁, hlow, hlt₁, hspell₁, hnext₁, -, -⟩ := member_at hspell hspelled
      have hspelled₁ : ProperUnits units := fun h => hspelled (List.mem_cons_of_mem _ h)
      have hlength := spelledUnits_length_cons unit units
      obtain ⟨hpos, -, -⟩ := spelledUnits_length_pos unit
      have hsingle : ¬(at₁ + 1 + 1 < close ∧ byteAt glob (at₁ + 1) = hyphen) := by
        rintro ⟨hlt, hat⟩
        match units, hshort with
        | [], _ => simp at hlength; omega
        | [next], _ =>
          obtain ⟨-, -, -, -, -, -, hhyphen, -⟩ := member_at hspell₁ hspelled₁
          rw [hhyphen.mp hat] at hlength hclose
          have := spelledUnits_length_cons unit [(false, hyphen)]
          simp only [spelledUnits_plain, spelledUnits_nil, List.length_singleton] at this
          omega
        | middle :: high :: later, hshort => exact hshort middle high later rfl
      rw [checkedMembers, if_neg (by omega)]
      dsimp only
      rw [← hat₁, if_neg (by omega), if_neg hsingle, ih hspell₁ hspelled₁ (by omega) (by simp only [List.length_cons] at hfuel; omega),
        hlow, classRanges, inRanges_single]
      · rfl
      · exact hshort
  | case4 =>
    cases fuel with
    | zero => cases hfuel
    | succ fuel =>
      rw [checkedMembers, if_pos (by rw [hclose]; simp)]
      rfl

theorem length_le_spelledUnits (units : List (Bool × UInt8)) : units.length ≤ (spelledUnits units).length := by
  induction units with
  | nil => exact le_refl _
  | cons unit units ih =>
    have hlength := spelledUnits_length_cons unit units
    obtain ⟨hpos, -, -⟩ := spelledUnits_length_pos unit
    rw [List.length_cons]
    omega

theorem checkedClass_eq {glob : Bytes} {opening past : Nat} {units : List (Bool × UInt8)} (byte : UInt8)
    (hpast : past ≤ glob.length) (hspelled : ProperUnits units)
    (hspell : glob.drop (firstMember glob opening) = spelledUnits units ++ closeBracket :: glob.drop past) :
    checkedClass glob opening past byte = some (inRanges byte (classRanges units) != classNegated (glob.drop (opening + 1))) := by
  have hlength := congrArg List.length hspell
  rw [List.length_drop, List.length_append, List.length_cons, List.length_drop] at hlength
  have hfirst : opening + 1 ≤ firstMember glob opening := by
    rw [firstMember]
    split <;> omega
  have hlt : opening + 1 < glob.length := by omega
  have hnegated : (decide (byteAt glob (opening + 1) = exclamation) || decide (byteAt glob (opening + 1) = caret)) =
      classNegated (glob.drop (opening + 1)) := by
    rw [classNegated_drop, byteAt, List.getElem?_eq_getElem hlt]
    simp
  have hunits := length_le_spelledUnits units
  rw [checkedClass, if_neg (by omega), hnegated, ← firstMember,
    checkedMembers_eq hspell hspelled (by omega) (by omega)]
  rfl

/-! ## What is tried -/

theorem le_takeWhile {text : Bytes} {n : Nat} :
    n ≤ (text.takeWhile (· ≠ slash)).length ↔ n ≤ text.length ∧ slash ∉ text.take n := by
  induction text generalizing n with
  | nil => simp
  | cons c text ih =>
    cases n with
    | zero => simp
    | succ n =>
      rw [List.takeWhile_cons]
      by_cases hc : c = slash
      · rw [if_neg (by simpa using hc), hc]
        simp
      · rw [if_pos (by simpa using hc), List.length_cons, List.length_cons, List.take_succ_cons, List.mem_cons]
        simp only [Nat.add_le_add_iff_right, ih]
        constructor
        · rintro ⟨hle, hmem⟩
          exact ⟨hle, fun h => h.elim (fun h => hc h.symm) hmem⟩
        · rintro ⟨hle, hmem⟩
          exact ⟨hle, fun h => hmem (Or.inr h)⟩

theorem mem_starStarts {text : Bytes} {index start : Nat} : start ∈ starStarts text index ↔
    ∃ n, start = index + n ∧ n ≤ (text.drop index).length ∧ slash ∉ (text.drop index).take n := by
  simp only [starStarts, List.mem_map, List.mem_range, Nat.lt_succ_iff, le_takeWhile]
  constructor
  · rintro ⟨n, hn, rfl⟩
    exact ⟨n, rfl, hn⟩
  · rintro ⟨n, rfl, hn⟩
    exact ⟨n, hn, rfl⟩

theorem mem_segmentStarts {text : Bytes} {index start : Nat} : start ∈ segmentStarts text index ↔
    start = index ∨ ∃ n, start = index + (n + 1) ∧ (text.drop index)[n]? = some slash := by
  simp only [segmentStarts, List.mem_cons, List.mem_filterMap, List.mem_range, List.getElem?_drop]
  constructor
  · rintro (rfl | ⟨i, -, hi⟩)
    · exact Or.inl rfl
    · split at hi
      · rename_i h
        cases hi
        refine Or.inr ⟨i - index, by omega, ?_⟩
        rw [show index + (i - index) = i by omega]
        exact h.2
      · cases hi
  · rintro (rfl | ⟨n, rfl, hn⟩)
    · exact Or.inl rfl
    · obtain ⟨hlt, -⟩ := List.getElem?_eq_some_iff.mp hn
      exact Or.inr ⟨index + n, hlt, by rw [if_pos ⟨by omega, hn⟩]; rfl⟩

/-! ## Soundness of the memory, and of an answer -/

/-- The tokens at a state do not match the text there. -/
def Fails (glob text : Bytes) (state : Nat × Nat) : Prop :=
  ∃ tokens, TokensAt glob state.1 tokens ∧ ¬Matches slash tokens (text.drop state.2)

/-- Only states that fail are remembered. -/
def Sound (glob text : Bytes) (failed : FailedStates) : Prop := ∀ state ∈ failed, Fails glob text state

/-- A call answers: whether the tokens match the text from an index on, with a sound memory. -/
def Answers (glob text : Bytes) (tokens : List (Token UInt8)) (textIndex : Nat) (r : Option (Bool × FailedStates)) : Prop :=
  ∃ answer failed, r = some (answer, failed) ∧ (answer = true ↔ Matches slash tokens (text.drop textIndex)) ∧
    Sound glob text failed

variable {glob text : Bytes} {tokens later : List (Token UInt8)} {origin : Nat × Nat} {textIndex : Nat} {failed : FailedStates}

theorem sound_remember {r : Bool × FailedStates} (hsound : Sound glob text r.2) (hfails : r.1 = false → Fails glob text origin) :
    (rememberFailure origin r).1 = r.1 ∧ Sound glob text (rememberFailure origin r).2 := by
  obtain ⟨answer, failed⟩ := r
  cases answer with
  | true => exact ⟨rfl, hsound⟩
  | false =>
    refine ⟨rfl, ?_⟩
    intro state hstate
    rcases List.mem_cons.mp hstate with rfl | hstate
    · exact hfails rfl
    · exact hsound state hstate

theorem answers_no (hsound : Sound glob text failed)
    (hfails : ¬Matches slash tokens (text.drop textIndex) → Fails glob text origin)
    (hno : ¬Matches slash tokens (text.drop textIndex)) :
    Answers glob text tokens textIndex (some (rememberFailure origin (false, failed))) := by
  obtain ⟨-, hsound⟩ := sound_remember (r := (false, failed)) hsound (fun _ => hfails hno)
  exact ⟨_, _, rfl, by simpa [rememberFailure] using hno, hsound⟩

theorem Answers.of_iff {at' : Nat} {r : Option (Bool × FailedStates)} (h : Answers glob text later at' r)
    (hiff : Matches slash tokens (text.drop textIndex) ↔ Matches slash later (text.drop at')) :
    Answers glob text tokens textIndex r := by
  obtain ⟨answer, failed, hr, hanswer, hsound⟩ := h
  exact ⟨answer, failed, hr, hanswer.trans hiff.symm, hsound⟩

/-- One try after the other: the answer is yes if the tokens match from one of the indices. -/
theorem starts_answer {attempt : Nat → FailedStates → Option (Bool × FailedStates)} {starts : List Nat}
    (hcalls : ∀ start ∈ starts, ∀ failed, Sound glob text failed → Answers glob text later start (attempt start failed))
    (hsound : Sound glob text failed) :
    ∃ answer failed', checkedStarts attempt starts failed = some (answer, failed') ∧
      (answer = true ↔ ∃ start ∈ starts, Matches slash later (text.drop start)) ∧ Sound glob text failed' := by
  induction starts generalizing failed with
  | nil => exact ⟨false, failed, rfl, by simp, hsound⟩
  | cons start starts ih =>
    obtain ⟨first, failed₁, hfirst, hiff, hsound₁⟩ := hcalls start List.mem_cons_self failed hsound
    cases first with
    | true =>
      refine ⟨true, failed₁, ?_, ?_, hsound₁⟩
      · rw [checkedStarts, hfirst]
        rfl
      · simp only [true_iff]
        exact ⟨start, List.mem_cons_self, hiff.mp rfl⟩
    | false =>
      obtain ⟨answer, failed₂, hrest, hiff₂, hsound₂⟩ :=
        ih (fun start hstart => hcalls start (List.mem_cons_of_mem _ hstart)) hsound₁
      refine ⟨answer, failed₂, ?_, ?_, hsound₂⟩
      · rw [checkedStarts, hfirst]
        exact hrest
      · rw [hiff₂, List.exists_mem_cons_iff]
        have hnot : ¬Matches slash later (text.drop start) := fun h => by cases hiff.mpr h
        simp only [hnot, false_or]

/-- A run of tries: what the tokens match is what they match from one of the indices. -/
theorem answers_starts {attempt : Nat → FailedStates → Option (Bool × FailedStates)} {starts : List Nat}
    (hcalls : ∀ start ∈ starts, ∀ failed, Sound glob text failed → Answers glob text later start (attempt start failed))
    (hsound : Sound glob text failed) (hfails : ¬Matches slash tokens (text.drop textIndex) → Fails glob text origin)
    (hiff : Matches slash tokens (text.drop textIndex) ↔ ∃ start ∈ starts, Matches slash later (text.drop start)) :
    Answers glob text tokens textIndex ((checkedStarts attempt starts failed).map (rememberFailure origin)) := by
  obtain ⟨answer, failed', hstarts, hanswer, hsound'⟩ := starts_answer hcalls hsound
  obtain ⟨hsame, hremember⟩ := @sound_remember _ _ origin (answer, failed') hsound' (by
    intro hno
    exact hfails (fun h => by rw [hanswer.mpr (hiff.mp h)] at hno; cases hno))
  refine ⟨(rememberFailure origin (answer, failed')).1, (rememberFailure origin (answer, failed')).2, ?_, ?_, hremember⟩
  · rw [hstarts]
    rfl
  rw [hsame, hanswer, hiff]

/-! ## The matcher -/

/-- Each token consumes some of the glob, so the rounds last; by cases on the byte the next token begins with. -/
theorem checkedMatchFrom_answers (reuse : Bool) {fuel globIndex : Nat} (hfuel : glob.length < globIndex + fuel)
    (htokens : TokensAt glob globIndex tokens) (htext : textIndex ≤ text.length) (hsound : Sound glob text failed)
    (hfails : ¬Matches slash tokens (text.drop textIndex) → Fails glob text origin) :
    Answers glob text tokens textIndex (checkedMatchFrom reuse glob text fuel origin globIndex textIndex failed) := by
  induction fuel generalizing origin globIndex textIndex failed tokens with
  | zero =>
    obtain ⟨hle, -⟩ := htokens
    omega
  | succ fuel ih =>
    -- a call at a later index of the glob
    have hcalls : ∀ next later, globIndex < next → TokensAt glob next later → ∀ start ≤ text.length, ∀ failed,
        Sound glob text failed → Answers glob text later start
          (if glob.length < next ∨ text.length < start then none
            else if reuse = true ∧ (next, start) ∈ failed then some (false, failed)
            else checkedMatchFrom reuse glob text fuel (next, start) next start failed) := by
      intro next later hnext hlater start hstart failed hsound
      obtain ⟨hle, -⟩ := id hlater
      rw [if_neg (by omega)]
      split
      · rename_i hmem
        obtain ⟨others, hothers, hno⟩ := hsound _ hmem.2
        rw [← hlater.unique hothers] at hno
        exact ⟨false, failed, rfl, by simpa using hno, hsound⟩
      · exact ih (by omega) hlater hstart hsound (fun hno => ⟨later, hlater, hno⟩)
    rw [checkedMatchFrom]
    dsimp only
    cases hget : glob[globIndex]? with
    | none =>
      obtain rfl := htokens.at_end hget
      obtain ⟨hsame, hremember⟩ := @sound_remember _ _ origin (decide (textIndex = text.length), failed) hsound (by
        intro hne
        apply hfails
        rw [matches_nil, List.drop_eq_nil_iff]
        simp at hne
        omega)
      refine ⟨(rememberFailure origin (decide (textIndex = text.length), failed)).1, _, rfl, ?_, hremember⟩
      rw [hsame, matches_nil, List.drop_eq_nil_iff, decide_eq_true_eq]
      omega
    | some c =>
      dsimp only
      by_cases hstar : c = star
      · subst hstar
        obtain ⟨hpast, hlength, -⟩ := afterStars_spec hget
        rw [if_pos rfl]
        split
        · rename_i hwhole
          obtain ⟨htwo, hstarts, hend⟩ := hwhole
          split
          · rename_i hlast
            rw [htokens.rest hget htwo hstarts hlast]
            exact ⟨true, failed, rfl, by simp, hsound⟩
          · rename_i hlast
            obtain ⟨later, rfl, hlater⟩ := htokens.segments hget htwo hstarts (hend.resolve_left hlast)
            apply @answers_starts _ _ _ later _ _ _ _ _ _ hsound hfails
            · rw [matches_segments]
              constructor
              · rintro (h | ⟨n, hn, h⟩)
                · exact ⟨textIndex, mem_segmentStarts.mpr (Or.inl rfl), h⟩
                · rw [List.drop_drop] at h
                  exact ⟨_, mem_segmentStarts.mpr (Or.inr ⟨n, rfl, hn⟩), h⟩
              · rintro ⟨start, hstart, h⟩
                rcases mem_segmentStarts.mp hstart with rfl | ⟨n, rfl, hn⟩
                · exact Or.inl h
                · rw [← List.drop_drop] at h
                  exact Or.inr ⟨n, hn, h⟩
            · intro start hstart
              apply hcalls _ _ (by omega) hlater
              rcases mem_segmentStarts.mp hstart with rfl | ⟨n, rfl, hn⟩
              · exact htext
              · obtain ⟨hlt, -⟩ := List.getElem?_eq_some_iff.mp hn
                rw [List.length_drop] at hlt
                omega
        · rename_i hwhole
          obtain ⟨later, rfl, hlater⟩ := htokens.stars hget hwhole
          apply @answers_starts _ _ _ later _ _ _ _ _ _ hsound hfails
          · rw [matches_stars]
            constructor
            · rintro ⟨n, hn, hrun, h⟩
              rw [List.drop_drop] at h
              exact ⟨_, mem_starStarts.mpr ⟨n, rfl, hn, hrun⟩, h⟩
            · rintro ⟨start, hstart, h⟩
              obtain ⟨n, rfl, hn, hrun⟩ := mem_starStarts.mp hstart
              rw [← List.drop_drop] at h
              exact ⟨n, hn, hrun, h⟩
          · intro start hstart
            apply hcalls _ _ hpast hlater
            obtain ⟨n, rfl, hn, -⟩ := mem_starStarts.mp hstart
            rw [List.length_drop] at hn
            omega
      · rw [if_neg hstar]
        -- the tokens of one byte: none matches the end of the text, and each passes one byte on
        cases htextGet : text[textIndex]? with
        | none =>
          dsimp only
          apply answers_no hsound hfails
          rw [List.drop_of_length_le (List.getElem?_eq_none_iff.mp htextGet)]
          by_cases hquestion : c = questionMark
          · subst hquestion
            obtain ⟨later, rfl, -⟩ := htokens.question hget
            exact not_matches_end (by simp)
          · by_cases hopen : c = openBracket
            · subst hopen
              obtain ⟨-, -, later, -, -, -, -, rfl, -⟩ := htokens.byteClass hget
              exact not_matches_end (by simp)
            · obtain ⟨-, later, -, rfl, -⟩ := htokens.literal hget hstar hquestion hopen
              exact not_matches_end (by simp)
        | some current =>
          obtain ⟨hlt, hdrop⟩ := drop_of_get htextGet
          dsimp only
          by_cases hquestion : c = questionMark
          · subst hquestion
            obtain ⟨later, rfl, hlater⟩ := htokens.question hget
            have hiff := @matches_anyByte_cons _ _ _ slash current later (text.drop (textIndex + 1))
            rw [← hdrop] at hiff
            rw [if_pos rfl]
            split
            · rename_i hslash
              exact answers_no hsound hfails (fun h => (hiff.mp h).1 hslash)
            · rename_i hslash
              have hsame := hiff.trans ( and_iff_right hslash)
              rw [hsame] at hfails
              exact (ih (by omega) hlater hlt hsound hfails).of_iff hsame
          · rw [if_neg hquestion]
            by_cases hopen : c = openBracket
            · subst hopen
              obtain ⟨past, units, later, hfind, hpast, hspelled, hspell, rfl, hlater⟩ := htokens.byteClass hget
              have hiff := @matches_byteClass_cons _ _ _ slash current later (text.drop (textIndex + 1))
                (classNegated (glob.drop (globIndex + 1))) (classRanges units)
              rw [← hdrop] at hiff
              rw [if_pos rfl, hfind]
              dsimp only
              rw [checkedClass_eq current hlater.1 hspelled hspell, Option.bind_some]
              split
              · rename_i hno
                apply answers_no hsound hfails
                intro h
                obtain ⟨hslash, hin, -⟩ := hiff.mp h
                exact hno.elim hslash (by simpa using hin)
              · rename_i hno
                have hin : current ≠ slash ∧ inRanges current (classRanges units) ≠ classNegated (glob.drop (globIndex + 1)) := by
                  constructor
                  · exact fun h => hno (Or.inl h)
                  · intro h
                    exact hno (Or.inr (by simpa using h))
                have hsame := (hiff.trans and_assoc.symm).trans ( and_iff_right hin)
                rw [hsame] at hfails
                exact (ih (by omega) hlater hlt hsound hfails).of_iff hsame
            · rw [if_neg hopen]
              obtain ⟨byte, later, hbyte, rfl, hlater⟩ := htokens.literal hget hstar hquestion hopen
              have hiff := @matches_literal_cons _ _ _ slash byte later (text.drop (textIndex + 1)) current
              rw [← hdrop] at hiff
              rw [hbyte, Option.bind_some]
              split
              · rename_i hcurrent
                have hsame := hiff.trans ( and_iff_right hcurrent)
                rw [hsame] at hfails
                refine (ih ?_ hlater hlt hsound hfails).of_iff hsame
                split <;> omega
              · rename_i hcurrent
                exact answers_no hsound hfails (fun h => hcurrent (hiff.mp h).1)

theorem checkedMatch_eq (reuse : Bool) (htokens : TokensAt glob 0 tokens) (text : Bytes) :
    ∃ answer, checkedMatch reuse glob text = some answer ∧ (answer = true ↔ Matches slash tokens text) := by
  obtain ⟨answer, failed, hr, hanswer, -⟩ := @checkedMatchFrom_answers _ text _ (0, 0) 0 [] reuse (glob.length + 1) _ (by omega)
    htokens (Nat.zero_le _) (fun _ h => by cases h) (fun hno => ⟨tokens, htokens, hno⟩)
  exact ⟨answer, by rw [checkedMatch, hr]; rfl, hanswer⟩

theorem matchCaptureGlob_iff (htokens : TokensAt glob 0 tokens) (text : Bytes) :
    matchCaptureGlob glob text = true ↔ Matches slash tokens text := by
  obtain ⟨answer, hanswer, hiff⟩ := checkedMatch_eq true htokens text
  rw [checkedMatch] at hanswer
  obtain ⟨r, hr, rfl⟩ := Option.map_eq_some_iff.mp hanswer
  rw [matchCaptureGlob, match_of_checked hr, hiff]

end GlobMatchingAux

open GlobMatchingAux in
/-- A glob that `validate_glob` accepts has one list of tokens, and the matcher answers whether a text is in its language. It reads
nothing outside the glob, the text and its memory, reaches no branch for a malformed glob, comes to an end, and answers the same with
its memory of failures as without. -/
theorem glob_matching (glob : Bytes) (hvalid : validateGlob glob = none) :
    ∃ tokens, (∀ others, Tokenizes true glob others ↔ others = tokens) ∧
      ∀ text, (matchCaptureGlob glob text = true ↔ Matches slash tokens text) ∧
        ∀ reuse, checkedMatch reuse glob text = some (matchCaptureGlob glob text) := by
  obtain ⟨tokens, htokens⟩ := (tokenizes_of_validated (by omega) hvalid true).1
  rw [List.drop_zero] at htokens
  have hat : TokensAt glob 0 tokens := ⟨Nat.zero_le _, htokens⟩
  refine ⟨tokens, ?_, ?_⟩
  · intro others
    constructor
    · exact fun h => h.unique htokens
    · rintro rfl
      exact htokens
  · intro text
    refine ⟨matchCaptureGlob_iff hat text, ?_⟩
    intro reuse
    obtain ⟨answer, hanswer, hiff⟩ := checkedMatch_eq reuse hat text
    rw [hanswer, Option.some.injEq, Bool.eq_iff_iff, hiff, matchCaptureGlob_iff hat]

/-- `**` over any directories, then a class and a star: the glob `**` `/[!a-c]*`. -/
theorem glob_matching_nested : ∃ tokens, (∀ others, Tokenizes true [42, 42, 47, 91, 33, 97, 45, 99, 93, 42] others ↔ others = tokens) ∧
    ∀ text, (matchCaptureGlob [42, 42, 47, 91, 33, 97, 45, 99, 93, 42] text = true ↔ Matches slash tokens text) ∧
      ∀ reuse, checkedMatch reuse [42, 42, 47, 91, 33, 97, 45, 99, 93, 42] text =
        some (matchCaptureGlob [42, 42, 47, 91, 33, 97, 45, 99, 93, 42] text) :=
  glob_matching [42, 42, 47, 91, 33, 97, 45, 99, 93, 42] (by decide)

end TribiosVfs

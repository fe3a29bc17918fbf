import TribiosVfs.Lemmas.Utf8

/-!
# UTF-8 validation

`is_valid_utf8` accepts the texts that are spelled in characters. `readUtf8` is the same loop over indices, in which a read past the end
of the text is told from an answer.
-/

namespace TribiosVfs

/-- The reads of the bytes behind the second, in order, up to the first that is no continuation byte; `none` past the end. -/
def readContinuation (text : Bytes) (index : Nat) : List Nat → Option Bool
  | [] => some true
  | offset :: offsets => do
    let c ← text[index + offset]?
    if c &&& 0xC0 ≠ 0x80 then some false else readContinuation text index offsets

/-- The loop of `is_valid_utf8` over indices; `none` where it would read past the end. -/
def readUtf8 (text : Bytes) : (rounds : Nat) → (index : Nat) → Option Bool
  | 0, index => some (text.length ≤ index)
  | rounds + 1, index =>
    if text.length ≤ index then some true
    else do
      let lead ← text[index]?
      if lead < 0x80 then readUtf8 text rounds (index + 1)
      else match utf8Continuation lead with
        | none => some false
        | some (continuation, low, high) =>
          if text.length ≤ index + continuation then some false
          else do
            let second ← text[index + 1]?
            if second < low ∨ high < second then some false
            else do
              let tail ← readContinuation text index ((List.range (continuation - 1)).map (· + 2))
              if tail = false then some false else readUtf8 text rounds (index + continuation + 1)

namespace Utf8Aux

/-- The continuation bytes are read where the list of what is left has them. -/
theorem readContinuation_eq (text : Bytes) (index : Nat) (tail : Bytes) : ∀ (start : Nat),
    (∀ i < tail.length, text[index + (start + i)]? = tail[i]?) →
    readContinuation text index ((List.range tail.length).map (· + start)) = some (tail.all (fun c => c &&& 0xC0 = 0x80)) := by
  induction tail with
  | nil => exact fun _ _ => rfl
  | cons c tail ih =>
    intro start hread
    have hfirst := hread 0 (by simp)
    rw [Nat.add_zero, List.getElem?_cons_zero] at hfirst
    have hrange : (List.range (c :: tail).length).map (· + start) = start :: (List.range tail.length).map (· + (start + 1)) := by
      rw [List.length_cons, List.range_succ_eq_map, List.map_cons, List.map_map]
      congr 1
      · omega
      · refine List.map_congr_left (fun i _ => ?_)
        simp only [Function.comp_apply]
        omega
    rw [hrange, readContinuation, hfirst]
    by_cases hc : c &&& 0xC0 = 0x80
    · have := ih (start + 1) (fun i hi => by
        have hnext := hread (i + 1) (by simpa using hi)
        rwa [List.getElem?_cons_succ, Nat.add_comm i 1, ← Nat.add_assoc start] at hnext)
      simpa [hc] using this
    · simp [hc]

theorem drop_eq_cons {text rest : Bytes} {index : Nat} {c : UInt8} (h : text.drop index = c :: rest) :
    index < text.length ∧ text[index]? = some c ∧ text.drop (index + 1) = rest := by
  have hlen : index < text.length := by
    by_contra hge
    rw [List.drop_eq_nil_of_le (Nat.not_lt.mp hge)] at h
    cases h
  refine ⟨hlen, ?_, ?_⟩
  · have := congrArg List.head? h
    rwa [List.head?_drop, List.head?_cons] at this
  · have := congrArg List.tail h
    rwa [List.tail_drop, List.tail_cons] at this

/-- The loop over indices answers what the loop over the rest of the text answers. -/
theorem readUtf8_eq (text : Bytes) (rounds : Nat) : ∀ index, readUtf8 text rounds index = some (validUtf8From rounds (text.drop index)) := by
  induction rounds with
  | zero =>
    intro index
    rw [readUtf8]
    cases hd : text.drop index with
    | nil =>
      rw [List.drop_eq_nil_iff] at hd
      simp [hd, validUtf8From]
    | cons c rest =>
      have := (drop_eq_cons hd).1
      simp [validUtf8From]
      omega
  | succ rounds ih =>
    intro index
    rw [readUtf8]
    cases hd : text.drop index with
    | nil =>
      rw [List.drop_eq_nil_iff] at hd
      rw [if_pos hd, validUtf8From]
    | cons lead rest =>
      obtain ⟨hlt, hlead, hrest⟩ := drop_eq_cons hd
      have hlen : text.length = index + 1 + rest.length := by
        have := congrArg List.length hd
        rw [List.length_drop, List.length_cons] at this
        omega
      rw [if_neg (by omega), hlead, validUtf8From]
      simp only [Option.bind_eq_bind, Option.bind_some]
      by_cases hascii : lead < 0x80
      · rw [if_pos hascii, if_pos hascii, ih, hrest]
      · rw [if_neg hascii, if_neg hascii]
        cases htable : utf8Continuation lead with
        | none => rfl
        | some found =>
          obtain ⟨continuation, low, high⟩ := found
          dsimp only
          by_cases hshort : rest.length < continuation
          · rw [if_pos hshort, if_pos (by omega)]
          · rw [if_neg hshort, if_neg (by omega)]
            have hpos : 0 < continuation := by
              rcases utf8Continuation_cases htable with ⟨rfl, -⟩ | ⟨rfl, -⟩ | ⟨rfl, -⟩ <;> omega
            cases hr : rest with
            | nil =>
              rw [hr, List.length_nil] at hshort
              omega
            | cons second rest' =>
              rw [hr] at hrest hlen hshort
              obtain ⟨-, hsecond, hrest'⟩ := drop_eq_cons hrest
              rw [hsecond]
              simp only [Option.bind_some]
              by_cases hs : second < low ∨ high < second
              · rw [if_pos hs, if_pos hs]
              · rw [if_neg hs, if_neg hs]
                have htail : ∀ i < (rest'.take (continuation - 1)).length,
                    text[index + (2 + i)]? = (rest'.take (continuation - 1))[i]? := by
                  intro i hi
                  rw [List.length_take] at hi
                  rw [List.getElem?_take, if_pos (by omega), ← hrest', List.getElem?_drop]
                  congr 1
                  omega
                have hcount : (rest'.take (continuation - 1)).length = continuation - 1 := by
                  rw [List.length_take]
                  rw [List.length_cons] at hshort
                  omega
                have hread := readContinuation_eq text index (rest'.take (continuation - 1)) 2 htail
                rw [hcount] at hread
                rw [hread]
                have hdrop : ((second :: rest').take continuation).drop 1 = rest'.take (continuation - 1) := by
                  obtain ⟨count, rfl⟩ := Nat.exists_eq_succ_of_ne_zero (Nat.pos_iff_ne_zero.mp hpos)
                  rw [List.take_succ_cons, List.drop_one, List.tail_cons, Nat.succ_sub_one]
                have hall : (rest'.take (continuation - 1)).any (fun c => c &&& 0xC0 ≠ 0x80) =
                    !(rest'.take (continuation - 1)).all (fun c => c &&& 0xC0 = 0x80) := by
                  simp [List.not_all_eq_any_not]
                have hnext : text.drop (index + continuation + 1) = (second :: rest').drop continuation := by
                  rw [← hrest, List.drop_drop]
                  congr 1
                  omega
                rw [hdrop, hall, ih, hnext]
                simp only [Option.bind_some]
                cases (rest'.take (continuation - 1)).all (fun c => c &&& 0xC0 = 0x80) <;> rfl

end Utf8Aux

/-! ## Theorem: the validator accepts exactly UTF-8 -/

/-- A text is accepted exactly when it is the encodings of some characters one after another, and no read is past its end. -/
theorem utf8_accepted_exactly (text : Bytes) :
    (isValidUtf8 text = true ↔ ∃ chars : List Char, text = chars.flatMap String.utf8EncodeChar) ∧
      readUtf8 text text.length 0 = some (isValidUtf8 text) :=
  ⟨isValidUtf8_iff text, Utf8Aux.readUtf8_eq text text.length 0⟩

end TribiosVfs

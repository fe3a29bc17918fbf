import TribiosVfs.CapturePolicy

/-!
# UTF-8

One round of `is_valid_utf8` takes one code point: the encoding of a character is accepted and what follows it is what is left
(`validUtf8From_encode`), and what a round accepts is the encoding of a character (`validUtf8From_round`). The loop realigns there.
-/

namespace TribiosVfs

/-! ## Bytes as numbers -/

theorem continuation_iff (c : UInt8) : c &&& 0xC0 = 0x80 ↔ 0x80 ≤ c.toNat ∧ c.toNat ≤ 0xBF := by
  have hall : ∀ i : Fin 256, UInt8.ofFin i &&& 0xC0 = 0x80 ↔ 0x80 ≤ i.val ∧ i.val ≤ 0xBF := by decide +kernel
  exact hall c.toFin

/-- `is_valid_utf8`'s table, with the ranges as numbers. -/
theorem utf8Continuation_cases {lead : UInt8} {continuation : Nat} {low high : UInt8}
    (h : utf8Continuation lead = some (continuation, low, high)) :
    (continuation = 1 ∧ 0xC2 ≤ lead.toNat ∧ lead.toNat ≤ 0xDF ∧ low.toNat = 0x80 ∧ high.toNat = 0xBF) ∨
    (continuation = 2 ∧ 0xE0 ≤ lead.toNat ∧ lead.toNat ≤ 0xEF ∧ low.toNat = (if lead.toNat = 0xE0 then 0xA0 else 0x80) ∧
      high.toNat = if lead.toNat = 0xED then 0x9F else 0xBF) ∨
    (continuation = 3 ∧ 0xF0 ≤ lead.toNat ∧ lead.toNat ≤ 0xF4 ∧ low.toNat = (if lead.toNat = 0xF0 then 0x90 else 0x80) ∧
      high.toNat = if lead.toNat = 0xF4 then 0x8F else 0xBF) := by
  have hif : ∀ (a : UInt8) (x y : UInt8), (if lead = a then x else y).toNat = if lead.toNat = a.toNat then x.toNat else y.toNat := by
    intro a x y
    by_cases hl : lead = a
    · rw [if_pos hl, if_pos (congrArg UInt8.toNat hl)]
    · rw [if_neg hl, if_neg (fun he => hl (UInt8.toNat_inj.mp he))]
  unfold utf8Continuation at h
  simp only [UInt8.le_iff_toNat_le] at h
  split at h
  · rename_i h1
    obtain ⟨rfl, rfl, rfl⟩ : continuation = 1 ∧ low = 0x80 ∧ high = 0xBF := by simpa [eq_comm] using h
    exact Or.inl ⟨rfl, h1.1, h1.2, rfl, rfl⟩
  · split at h
    · rename_i h2
      simp only [Option.some.injEq, Prod.mk.injEq] at h
      obtain ⟨rfl, rfl, rfl⟩ := h
      exact Or.inr (Or.inl ⟨rfl, h2.1, h2.2, hif _ _ _, hif _ _ _⟩)
    · split at h
      · rename_i h3
        simp only [Option.some.injEq, Prod.mk.injEq] at h
        obtain ⟨rfl, rfl, rfl⟩ := h
        exact Or.inr (Or.inr ⟨rfl, h3.1, h3.2, hif _ _ _, hif _ _ _⟩)
      · cases h

theorem utf8Continuation_two {lead : UInt8} (h : 0xC2 ≤ lead.toNat) (h' : lead.toNat ≤ 0xDF) :
    utf8Continuation lead = some (1, 0x80, 0xBF) := by
  unfold utf8Continuation
  simp only [UInt8.le_iff_toNat_le]
  exact if_pos ⟨h, h'⟩

theorem utf8Continuation_three {lead : UInt8} (h : 0xE0 ≤ lead.toNat) (h' : lead.toNat ≤ 0xEF) :
    utf8Continuation lead = some (2, if lead = 0xE0 then 0xA0 else 0x80, if lead = 0xED then 0x9F else 0xBF) := by
  unfold utf8Continuation
  simp only [UInt8.le_iff_toNat_le]
  rw [if_neg (fun hc => by have h2 := hc.2; simp at h2; omega)]
  exact if_pos ⟨h, h'⟩

theorem utf8Continuation_four {lead : UInt8} (h : 0xF0 ≤ lead.toNat) (h' : lead.toNat ≤ 0xF4) :
    utf8Continuation lead = some (3, if lead = 0xF0 then 0x90 else 0x80, if lead = 0xF4 then 0x8F else 0xBF) := by
  unfold utf8Continuation
  simp only [UInt8.le_iff_toNat_le]
  rw [if_neg (fun hc => by have h2 := hc.2; simp at h2; omega), if_neg (fun hc => by have h2 := hc.2; simp at h2; omega)]
  exact if_pos ⟨h, h'⟩

/-! ## The encoding of a character -/

theorem toNat_ofNat_byte {n : Nat} (h : n < 256) : (UInt8.ofNat n).toNat = n := by
  rw [UInt8.toNat_ofNat']
  exact Nat.mod_eq_of_lt h

/-- What a character's number is: no surrogate, and at most U+10FFFF. -/
theorem Char.toNat_scalar (c : Char) : c.val.toNat < 0xD800 ∨ 0xDFFF < c.val.toNat ∧ c.val.toNat < 0x110000 := c.valid

/-- The four lengths of an encoding. -/
theorem utf8EncodeChar_cases (c : Char) :
    (c.val.toNat ≤ 0x7F ∧ String.utf8EncodeChar c = [UInt8.ofNat c.val.toNat]) ∨
    (0x7F < c.val.toNat ∧ c.val.toNat ≤ 0x7FF ∧ String.utf8EncodeChar c =
      [UInt8.ofNat (c.val.toNat / 64 % 32 + 0xC0), UInt8.ofNat (c.val.toNat % 64 + 0x80)]) ∨
    (0x7FF < c.val.toNat ∧ c.val.toNat ≤ 0xFFFF ∧ String.utf8EncodeChar c =
      [UInt8.ofNat (c.val.toNat / 4096 % 16 + 0xE0), UInt8.ofNat (c.val.toNat / 64 % 64 + 0x80),
        UInt8.ofNat (c.val.toNat % 64 + 0x80)]) ∨
    (0xFFFF < c.val.toNat ∧ String.utf8EncodeChar c =
      [UInt8.ofNat (c.val.toNat / 262144 % 8 + 0xF0), UInt8.ofNat (c.val.toNat / 4096 % 64 + 0x80),
        UInt8.ofNat (c.val.toNat / 64 % 64 + 0x80), UInt8.ofNat (c.val.toNat % 64 + 0x80)]) := by
  unfold String.utf8EncodeChar
  dsimp only
  by_cases h1 : c.val.toNat ≤ 0x7F
  · exact Or.inl ⟨h1, if_pos h1⟩
  · rw [if_neg h1]
    by_cases h2 : c.val.toNat ≤ 0x7FF
    · exact Or.inr (Or.inl ⟨by omega, h2, if_pos h2⟩)
    · rw [if_neg h2]
      by_cases h3 : c.val.toNat ≤ 0xFFFF
      · exact Or.inr (Or.inr (Or.inl ⟨by omega, h3, if_pos h3⟩))
      · exact Or.inr (Or.inr (Or.inr ⟨by omega, if_neg h3⟩))

/-! ## One round -/

theorem validUtf8From_ascii {lead : UInt8} (h : lead.toNat < 0x80) (fuel : Nat) (rest : Bytes) :
    validUtf8From (fuel + 1) (lead :: rest) = validUtf8From fuel rest := by
  rw [validUtf8From, if_pos (UInt8.lt_iff_toNat_lt.mpr h)]

/-- A round at a lead byte whose continuation bytes are all there and in their ranges. -/
theorem validUtf8From_lead {lead second : UInt8} {tail : Bytes} {continuation : Nat} {low high : UInt8} (hl : 0x80 ≤ lead.toNat)
    (hc : utf8Continuation lead = some (continuation + 1, low, high)) (hlen : tail.length = continuation)
    (hs : low.toNat ≤ second.toNat ∧ second.toNat ≤ high.toNat) (ht : ∀ c ∈ tail, 0x80 ≤ c.toNat ∧ c.toNat ≤ 0xBF)
    (fuel : Nat) (rest : Bytes) :
    validUtf8From (fuel + 1) (lead :: second :: (tail ++ rest)) = validUtf8From fuel rest := by
  have hlead : ¬lead < 0x80 := by
    rw [UInt8.lt_iff_toNat_lt]
    exact Nat.not_lt.mpr hl
  have hsecond : ¬(second < low ∨ high < second) := by
    rw [UInt8.lt_iff_toNat_lt, UInt8.lt_iff_toNat_lt]
    omega
  have hany : (((second :: (tail ++ rest)).take (continuation + 1)).drop 1).any (fun c => c &&& 0xC0 ≠ 0x80) = false := by
    rw [List.take_succ_cons, List.drop_one, List.tail_cons, ← hlen, List.take_left, List.any_eq_false]
    intro c hc
    simpa using (continuation_iff c).mpr (ht c hc)
  rw [validUtf8From, if_neg hlead, hc]
  dsimp only
  rw [if_neg (by simp [← hlen]), if_neg hsecond, hany, ← hlen]
  simp

/-- What a round at a lead byte has checked. -/
theorem validUtf8From_inv {lead : UInt8} {rest : Bytes} {fuel : Nat} (hl : 0x80 ≤ lead.toNat)
    (h : validUtf8From (fuel + 1) (lead :: rest) = true) :
    ∃ continuation low high second tail rest', utf8Continuation lead = some (continuation + 1, low, high) ∧
      rest = second :: (tail ++ rest') ∧ tail.length = continuation ∧ (low.toNat ≤ second.toNat ∧ second.toNat ≤ high.toNat) ∧
      (∀ c ∈ tail, 0x80 ≤ c.toNat ∧ c.toNat ≤ 0xBF) ∧ validUtf8From fuel rest' = true := by
  have hlead : ¬lead < 0x80 := by
    rw [UInt8.lt_iff_toNat_lt]
    exact Nat.not_lt.mpr hl
  rw [validUtf8From, if_neg hlead] at h
  cases hc : utf8Continuation lead with
  | none => simp [hc] at h
  | some found =>
    obtain ⟨count, low, high⟩ := found
    rw [hc] at h
    dsimp only at h
    by_cases hlen : rest.length < count
    · rw [if_pos hlen] at h
      cases h
    · rw [if_neg hlen] at h
      cases rest with
      | nil => cases h
      | cons second rest =>
        dsimp only at h
        by_cases hs : second < low ∨ high < second
        · rw [if_pos hs] at h
          cases h
        · rw [if_neg hs] at h
          split at h
          · cases h
          · rename_i hany
            rw [Bool.not_eq_true, List.any_eq_false] at hany
            obtain ⟨continuation, rfl⟩ : ∃ continuation, count = continuation + 1 := by
              rcases utf8Continuation_cases hc with ⟨rfl, -⟩ | ⟨rfl, -⟩ | ⟨rfl, -⟩
              · exact ⟨0, rfl⟩
              · exact ⟨1, rfl⟩
              · exact ⟨2, rfl⟩
            rw [List.take_succ_cons, List.drop_one, List.tail_cons] at hany
            rw [List.length_cons] at hlen
            rw [not_or, UInt8.lt_iff_toNat_lt, UInt8.lt_iff_toNat_lt] at hs
            refine ⟨continuation, low, high, second, rest.take continuation, rest.drop continuation, rfl, ?_, ?_, by omega,
              fun c hc => ?_, h⟩
            · rw [List.take_append_drop]
            · rw [List.length_take]
              omega
            · have := hany c hc
              exact (continuation_iff c).mp (by simpa using this)

/-! ## Rounds and characters -/

/-- The encoding of a character is taken in one round. -/
theorem validUtf8From_encode (c : Char) (fuel : Nat) (rest : Bytes) :
    validUtf8From (fuel + 1) (String.utf8EncodeChar c ++ rest) = validUtf8From fuel rest := by
  have hvalid := Char.toNat_scalar c
  generalize hv : c.val.toNat = v at hvalid
  rcases utf8EncodeChar_cases c with ⟨h, he⟩ | ⟨h, h', he⟩ | ⟨h, h', he⟩ | ⟨h, he⟩ <;> rw [he, hv] <;> rw [hv] at h
  · exact validUtf8From_ascii (by rw [toNat_ofNat_byte (by omega)]; omega) fuel rest
  · rw [hv] at h'
    have h0 : (UInt8.ofNat (v / 64 % 32 + 0xC0)).toNat = v / 64 % 32 + 0xC0 := toNat_ofNat_byte (by omega)
    have h1 : (UInt8.ofNat (v % 64 + 0x80)).toNat = v % 64 + 0x80 := toNat_ofNat_byte (by omega)
    refine @validUtf8From_lead _ _ [] 0 _ _ (by omega) (utf8Continuation_two (by omega) (by omega)) rfl ?_
      (fun c hc => by cases hc) fuel rest
    rw [h1]
    simp only [UInt8.reduceToNat]
    omega
  · rw [hv] at h'
    have h0 : (UInt8.ofNat (v / 4096 % 16 + 0xE0)).toNat = v / 4096 % 16 + 0xE0 := toNat_ofNat_byte (by omega)
    have h1 : (UInt8.ofNat (v / 64 % 64 + 0x80)).toNat = v / 64 % 64 + 0x80 := toNat_ofNat_byte (by omega)
    have h2 : (UInt8.ofNat (v % 64 + 0x80)).toNat = v % 64 + 0x80 := toNat_ofNat_byte (by omega)
    have htable := @utf8Continuation_three (UInt8.ofNat (v / 4096 % 16 + 0xE0)) (by omega) (by omega)
    have hrange := utf8Continuation_cases htable
    refine @validUtf8From_lead _ _ [UInt8.ofNat (v % 64 + 0x80)] 1 _ _ (by omega) htable rfl ?_ ?_ fuel rest
    · rw [h0] at hrange
      rw [h1]
      rcases hrange with ⟨hc, -⟩ | ⟨-, -, -, hlow, hhigh⟩ | ⟨hc, -⟩
      · cases hc
      · rw [hlow, hhigh]
        split <;> split <;> omega
      · cases hc
    · intro c hc
      rw [List.mem_singleton.mp hc, h2]
      omega
  · have h0 : (UInt8.ofNat (v / 262144 % 8 + 0xF0)).toNat = v / 262144 % 8 + 0xF0 := toNat_ofNat_byte (by omega)
    have h1 : (UInt8.ofNat (v / 4096 % 64 + 0x80)).toNat = v / 4096 % 64 + 0x80 := toNat_ofNat_byte (by omega)
    have h2 : (UInt8.ofNat (v / 64 % 64 + 0x80)).toNat = v / 64 % 64 + 0x80 := toNat_ofNat_byte (by omega)
    have h3 : (UInt8.ofNat (v % 64 + 0x80)).toNat = v % 64 + 0x80 := toNat_ofNat_byte (by omega)
    have htable := @utf8Continuation_four (UInt8.ofNat (v / 262144 % 8 + 0xF0)) (by omega) (by omega)
    have hrange := utf8Continuation_cases htable
    refine @validUtf8From_lead _ _ [UInt8.ofNat (v / 64 % 64 + 0x80), UInt8.ofNat (v % 64 + 0x80)] 2 _ _ (by omega) htable rfl
      ?_ ?_ fuel rest
    · rw [h0] at hrange
      rw [h1]
      rcases hrange with ⟨hc, -⟩ | ⟨hc, -⟩ | ⟨-, -, -, hlow, hhigh⟩
      · cases hc
      · cases hc
      · rw [hlow, hhigh]
        split <;> split <;> omega
    · intro c hc
      rcases List.mem_cons.mp hc with rfl | hc
      · omega
      · rw [List.mem_singleton.mp hc, h3]
        omega

theorem exists_char {n : Nat} (h : n < 0xD800 ∨ 0xDFFF < n ∧ n < 0x110000) : ∃ c : Char, c.val.toNat = n := by
  have hn : (UInt32.ofNat n).toNat = n := by
    rw [UInt32.toNat_ofNat']
    exact Nat.mod_eq_of_lt (by omega)
  refine ⟨⟨UInt32.ofNat n, ?_⟩, hn⟩
  rw [UInt32.isValidChar, hn]
  exact h

/-- What a round takes is the encoding of a character. -/
theorem validUtf8From_round {lead : UInt8} {rest : Bytes} {fuel : Nat} (h : validUtf8From (fuel + 1) (lead :: rest) = true) :
    ∃ (c : Char) (rest' : Bytes), lead :: rest = String.utf8EncodeChar c ++ rest' ∧ validUtf8From fuel rest' = true := by
  have byte_eq : ∀ {b : UInt8} {n : Nat}, b.toNat = n → b = UInt8.ofNat n := by
    rintro b n rfl
    exact UInt8.ofNat_toNat.symm
  by_cases hl : lead.toNat < 0x80
  · rw [validUtf8From_ascii hl] at h
    obtain ⟨c, hc⟩ := exists_char (n := lead.toNat) (by omega)
    refine ⟨c, rest, ?_, h⟩
    rcases utf8EncodeChar_cases c with ⟨-, he⟩ | ⟨hx, -⟩ | ⟨hx, -⟩ | ⟨hx, -⟩
    · rw [he, hc, UInt8.ofNat_toNat]
      rfl
    all_goals omega
  · obtain ⟨continuation, low, high, second, tail, rest', htable, rfl, hlen, hs, ht, hrest⟩ := validUtf8From_inv (by omega) h
    have hcases := utf8Continuation_cases htable
    have hbyte := second.toNat_lt
    rcases hcases with ⟨hcount, hlow', hhigh', hlow, hhigh⟩ | ⟨hcount, hlow', hhigh', hlow, hhigh⟩ | ⟨hcount, hlow', hhigh', hlow, hhigh⟩
    · obtain rfl : continuation = 0 := by omega
      obtain rfl := List.length_eq_zero_iff.mp hlen
      obtain ⟨c, hc⟩ := exists_char (n := (lead.toNat - 0xC0) * 64 + (second.toNat - 0x80)) (by omega)
      refine ⟨c, rest', ?_, hrest⟩
      rcases utf8EncodeChar_cases c with ⟨hx, -⟩ | ⟨-, -, he⟩ | ⟨hx, -⟩ | ⟨hx, -⟩
      · omega
      · rw [he, hc, ← byte_eq (b := lead) (by omega), ← byte_eq (b := second) (by omega)]
        rfl
      · omega
      · omega
    · obtain rfl : continuation = 1 := by omega
      obtain ⟨third, rfl⟩ := List.length_eq_one_iff.mp hlen
      have hthird := ht third List.mem_cons_self
      have hsecond : 0x80 ≤ second.toNat ∧ second.toNat ≤ 0xBF ∧ (lead.toNat = 0xE0 → 0xA0 ≤ second.toNat) ∧
          (lead.toNat = 0xED → second.toNat ≤ 0x9F) := by
        rw [hlow, hhigh] at hs
        split at hs <;> split at hs <;> omega
      obtain ⟨c, hc⟩ := exists_char (n := (lead.toNat - 0xE0) * 4096 + (second.toNat - 0x80) * 64 + (third.toNat - 0x80)) (by omega)
      refine ⟨c, rest', ?_, hrest⟩
      rcases utf8EncodeChar_cases c with ⟨hx, -⟩ | ⟨-, hx, -⟩ | ⟨-, -, he⟩ | ⟨hx, -⟩
      · omega
      · omega
      · rw [he, hc, ← byte_eq (b := lead) (by omega), ← byte_eq (b := second) (by omega), ← byte_eq (b := third) (by omega)]
        rfl
      · omega
    · obtain rfl : continuation = 2 := by omega
      obtain ⟨third, fourth, rfl⟩ := List.length_eq_two.mp hlen
      have hthird := ht third List.mem_cons_self
      have hfourth := ht fourth (List.mem_cons_of_mem _ List.mem_cons_self)
      have hsecond : 0x80 ≤ second.toNat ∧ second.toNat ≤ 0xBF ∧ (lead.toNat = 0xF0 → 0x90 ≤ second.toNat) ∧
          (lead.toNat = 0xF4 → second.toNat ≤ 0x8F) := by
        rw [hlow, hhigh] at hs
        split at hs <;> split at hs <;> omega
      obtain ⟨c, hc⟩ := exists_char (n := (lead.toNat - 0xF0) * 262144 + (second.toNat - 0x80) * 4096 + (third.toNat - 0x80) * 64 +
        (fourth.toNat - 0x80)) (by omega)
      refine ⟨c, rest', ?_, hrest⟩
      rcases utf8EncodeChar_cases c with ⟨hx, -⟩ | ⟨-, hx, -⟩ | ⟨-, hx, -⟩ | ⟨-, he⟩
      · omega
      · omega
      · omega
      · rw [he, hc, ← byte_eq (b := lead) (by omega), ← byte_eq (b := second) (by omega), ← byte_eq (b := third) (by omega),
          ← byte_eq (b := fourth) (by omega)]
        rfl

/-! ## Texts -/

/-- The bytes of a text that is spelled in characters. -/
def encodeUtf8 (chars : List Char) : Bytes := chars.flatMap String.utf8EncodeChar

@[simp] theorem encodeUtf8_nil : encodeUtf8 [] = [] := rfl

theorem encodeUtf8_cons (c : Char) (chars : List Char) : encodeUtf8 (c :: chars) = String.utf8EncodeChar c ++ encodeUtf8 chars := rfl

theorem encodeUtf8_append (chars chars' : List Char) : encodeUtf8 (chars ++ chars') = encodeUtf8 chars ++ encodeUtf8 chars' :=
  List.flatMap_append

theorem utf8EncodeChar_length_pos (c : Char) : 0 < (String.utf8EncodeChar c).length := by
  rcases utf8EncodeChar_cases c with ⟨-, he⟩ | ⟨-, -, he⟩ | ⟨-, -, he⟩ | ⟨-, he⟩ <;> simp [he]

/-- With a round for each byte the loop accepts the encodings of lists of characters, and nothing else. -/
theorem validUtf8From_iff (fuel : Nat) : ∀ {text : Bytes}, text.length ≤ fuel →
    (validUtf8From fuel text = true ↔ ∃ chars, text = encodeUtf8 chars) := by
  induction fuel with
  | zero =>
    intro text hlen
    obtain rfl := List.length_eq_zero_iff.mp (Nat.le_zero.mp hlen)
    exact ⟨fun _ => ⟨[], rfl⟩, fun _ => rfl⟩
  | succ fuel ih =>
    intro text hlen
    cases text with
    | nil => exact ⟨fun _ => ⟨[], rfl⟩, fun _ => rfl⟩
    | cons lead rest =>
      constructor
      · intro h
        obtain ⟨c, rest', heq, hrest⟩ := validUtf8From_round h
        have hpos := utf8EncodeChar_length_pos c
        have htotal := congrArg List.length heq
        rw [List.length_append] at htotal
        obtain ⟨chars, rfl⟩ := (ih (by omega)).mp hrest
        exact ⟨c :: chars, heq⟩
      · rintro ⟨chars, heq⟩
        cases chars with
        | nil => cases heq
        | cons c chars =>
          rw [encodeUtf8_cons] at heq
          have hpos := utf8EncodeChar_length_pos c
          have htotal := congrArg List.length heq
          rw [List.length_append] at htotal
          rw [heq, validUtf8From_encode]
          exact (ih (by omega)).mpr ⟨chars, rfl⟩

theorem isValidUtf8_iff (text : Bytes) : isValidUtf8 text = true ↔ ∃ chars, text = encodeUtf8 chars :=
  validUtf8From_iff text.length (le_refl _)

end TribiosVfs

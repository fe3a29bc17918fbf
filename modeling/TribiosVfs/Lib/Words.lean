import Mathlib

/-!
# Mixing machine words

The stages of a mixing function on 64-bit words, each of which loses nothing: adding a constant, folding the high bits onto the
low ones, and multiplying by a word that has an inverse. On a finite type what loses nothing also reaches every word.
-/

namespace Words

/-- A word that a shift leaves as it is has no bits. -/
theorem eq_zero_of_shiftRight {z k : UInt64} (hk : 0 < k.toNat % 64) (h : z >>> k = z) : z = 0 := by
  have hz := congrArg UInt64.toNat h
  rw [UInt64.toNat_shiftRight, Nat.shiftRight_eq_div_pow] at hz
  by_contra hne
  have hpos : 0 < z.toNat := by
    refine Nat.pos_of_ne_zero (fun h0 => hne ?_)
    exact UInt64.toNat_inj.mp h0
  have hlt := Nat.div_lt_self hpos (Nat.one_lt_two_pow (Nat.pos_iff_ne_zero.mp hk))
  omega

/-- Folding the high bits of a word onto its low bits. -/
theorem xorShift_injective {k : UInt64} (hk : 0 < k.toNat % 64) : Function.Injective (fun x : UInt64 => x ^^^ (x >>> k)) := by
  intro x y h
  dsimp only at h
  -- the difference of the two words is one that the shift leaves as it is
  have hz : (x ^^^ y) >>> k = x ^^^ y := by
    rw [UInt64.shiftRight_xor]
    have h' := congrArg (fun v => (v ^^^ (y >>> k)) ^^^ x) h
    calc x >>> k ^^^ y >>> k = (x ^^^ x >>> k ^^^ y >>> k) ^^^ x := by
          rw [UInt64.xor_comm _ x, ← UInt64.xor_assoc, ← UInt64.xor_assoc, UInt64.xor_self, UInt64.zero_xor]
      _ = (y ^^^ y >>> k ^^^ y >>> k) ^^^ x := h'
      _ = x ^^^ y := by rw [UInt64.xor_assoc y, UInt64.xor_self, UInt64.xor_zero, UInt64.xor_comm]
  exact UInt64.xor_eq_zero_iff.mp (eq_zero_of_shiftRight hk hz)

/-- Multiplying by a word that has an inverse. -/
theorem mul_injective {c inverse : UInt64} (hc : c * inverse = 1) : Function.Injective (fun x : UInt64 => x * c) := by
  intro x y h
  dsimp only at h
  calc x = x * c * inverse := by rw [UInt64.mul_assoc, hc, UInt64.mul_one]
    _ = y * c * inverse := by rw [h]
    _ = y := by rw [UInt64.mul_assoc, hc, UInt64.mul_one]

theorem add_injective (c : UInt64) : Function.Injective (fun x : UInt64 => x + c) := by
  intro x y h
  exact (UInt64.add_left_inj c).mp h

/-- There are finitely many words, so an injective function of words is onto. -/
theorem bijective_of_injective {f : UInt64 → UInt64} (hf : Function.Injective f) : Function.Bijective f := by
  have : Finite UInt64 := Finite.of_injective UInt64.toFin (fun x y h => UInt64.toFin_inj.mp h)
  exact ⟨hf, Finite.surjective_of_injective hf⟩

/-- A bijection with the value `a` turned into `b`: the words that it takes to `a` and to `b` are the only two that meet. -/
theorem collision_of_bijective {f : UInt64 → UInt64} (hf : Function.Bijective f) {a b : UInt64} (hab : a ≠ b) :
    ∃ x y, x ≠ y ∧ f x = a ∧ f y = b ∧ ∀ u v, u ≠ v →
      ((if f u = a then b else f u) = (if f v = a then b else f v) ↔ u = x ∧ v = y ∨ u = y ∧ v = x) := by
  obtain ⟨x, hx⟩ := hf.2 a
  obtain ⟨y, hy⟩ := hf.2 b
  refine ⟨x, y, ?_, hx, hy, fun u v huv => ⟨fun h => ?_, ?_⟩⟩
  · rintro rfl
    exact hab (hx.symm.trans hy)
  · have hux : f u = a → u = x := fun hu => hf.1 (hu.trans hx.symm)
    have hvx : f v = a → v = x := fun hv => hf.1 (hv.trans hx.symm)
    by_cases hu : f u = a
    · by_cases hv : f v = a
      · exact absurd ((hux hu).trans (hvx hv).symm) huv
      · rw [if_pos hu, if_neg hv] at h
        exact Or.inl ⟨hux hu, hf.1 (h.symm.trans hy.symm)⟩
    · by_cases hv : f v = a
      · rw [if_neg hu, if_pos hv] at h
        exact Or.inr ⟨hf.1 (h.trans hy.symm), hvx hv⟩
      · rw [if_neg hu, if_neg hv] at h
        exact absurd (hf.1 h) huv
  · rintro (⟨rfl, rfl⟩ | ⟨rfl, rfl⟩)
    · rw [if_pos hx, if_neg (fun h => hab (h.symm.trans hy)), hy]
    · rw [if_pos hx, if_neg (fun h => hab (h.symm.trans hy)), hy]

end Words

import TribiosVfs.Lib.Sha1
import TribiosVfs.Lemmas.GitIndex

/-!
# The checksum of an index file

`sha1_digest` compresses the whole blocks of the data where they stand, and then one or two blocks of padding. The blocks are those of
the padded message, and the compression is the standard's.
-/

namespace TribiosVfs

/-- The hash value the code keeps in an array. -/
def Sha1State.value (s : Sha1State) : Sha1.Words := ⟨s.a, s.b, s.c, s.d, s.e⟩

namespace Sha1Aux

/-! ### Words -/

theorem eq_of_bits {x y : UInt32} (h : ∀ i < 32, x.toBitVec.getLsbD i = y.toBitVec.getLsbD i) : x = y :=
  UInt32.toBitVec_inj.mp (BitVec.eq_of_getLsbD_eq h)

theorem rotl_one (x : UInt32) : rotl x 1 = Sha1.rotl 1 x := by
  apply UInt32.toBitVec_inj.mp
  simp [rotl, Sha1.rotl, BitVec.rotateLeft_def]

theorem rotl_five (x : UInt32) : rotl x 5 = Sha1.rotl 5 x := by
  apply UInt32.toBitVec_inj.mp
  simp [rotl, Sha1.rotl, BitVec.rotateLeft_def]

theorem rotl_thirty (x : UInt32) : rotl x 30 = Sha1.rotl 30 x := by
  apply UInt32.toBitVec_inj.mp
  simp [rotl, Sha1.rotl, BitVec.rotateLeft_def]

/-- The two halves of `Ch` have no bit in common, so that `or` and `xor` agree. -/
theorem ch_eq (x y z : UInt32) : (x &&& y) ||| (~~~x &&& z) = Sha1.ch x y z := by
  refine eq_of_bits (fun i hi => ?_)
  simp only [Sha1.ch, UInt32.toBitVec_or, UInt32.toBitVec_and, UInt32.toBitVec_xor, UInt32.toBitVec_not, BitVec.getLsbD_or,
    BitVec.getLsbD_and, BitVec.getLsbD_xor, BitVec.getLsbD_not, hi, decide_true, Bool.true_and]
  cases x.toBitVec.getLsbD i <;> cases y.toBitVec.getLsbD i <;> cases z.toBitVec.getLsbD i <;> rfl

/-- A bit that two of three words have: counted with `or` or with `xor`. -/
theorem maj_eq (x y z : UInt32) : (x &&& y) ||| (x &&& z) ||| (y &&& z) = Sha1.maj x y z := by
  refine eq_of_bits (fun i hi => ?_)
  simp only [Sha1.maj, UInt32.toBitVec_or, UInt32.toBitVec_and, UInt32.toBitVec_xor, BitVec.getLsbD_or,
    BitVec.getLsbD_and, BitVec.getLsbD_xor]
  cases x.toBitVec.getLsbD i <;> cases y.toBitVec.getLsbD i <;> cases z.toBitVec.getLsbD i <;> rfl

theorem roundMix_eq (t : Nat) (b c d : UInt32) : roundMix t b c d = (Sha1.f t b c d, Sha1.k t) := by
  unfold roundMix Sha1.f Sha1.k
  by_cases h1 : t ≤ 19
  · rw [if_pos (by omega), if_pos h1, if_pos h1, ch_eq]
  · rw [if_neg (by omega), if_neg h1, if_neg h1]
    by_cases h2 : t ≤ 39
    · rw [if_pos (by omega), if_pos h2, if_pos h2]
      rfl
    · rw [if_neg (by omega), if_neg h2, if_neg h2]
      by_cases h3 : t ≤ 59
      · rw [if_pos (by omega), if_pos h3, if_pos h3, maj_eq]
      · rw [if_neg (by omega), if_neg h3, if_neg h3]
        rfl

/-! ### The message schedule -/

theorem readBe32_word (block : Bytes) (t : Nat) : readBe32 block (t * 4) = Sha1.blockWord block t := by
  have h0 := (byteAt block (4 * t)).toNat_lt
  have h1 := (byteAt block (4 * t + 1)).toNat_lt
  have h2 := (byteAt block (4 * t + 2)).toNat_lt
  have h3 := (byteAt block (4 * t + 3)).toNat_lt
  apply UInt32.toNat_inj.mp
  rw [readBe32_toNat, Nat.mul_comm t 4]
  show _ = (Sha1.word (byteAt block (4 * t)) (byteAt block (4 * t + 1)) (byteAt block (4 * t + 2)) (byteAt block (4 * t + 3))).toNat
  rw [Sha1.word, UInt32.toNat_ofNat', Nat.mod_eq_of_lt (by omega)]

theorem wordAt_append (words : List UInt32) (x : UInt32) (i : Nat) :
    wordAt (words ++ [x]) i = if i = words.length then x else wordAt words i := by
  unfold wordAt
  by_cases hi : i = words.length
  · rw [if_pos hi, hi, List.getElem?_concat_length]
    rfl
  · rw [if_neg hi]
    by_cases hlt : i < words.length
    · rw [List.getElem?_append_left hlt]
    · rw [List.getElem?_eq_none (by simp; omega), List.getElem?_eq_none (by omega)]

/-- The loop that extends the words keeps them those of the schedule. -/
theorem wordAt_extendWords (block : Bytes) (n : Nat) : ∀ words : List UInt32, 16 ≤ words.length →
    (∀ t < words.length, wordAt words t = Sha1.schedule block t) →
    ∀ t < words.length + n, wordAt (extendWords n words) t = Sha1.schedule block t := by
  induction n with
  | zero => exact fun words _ hwords t ht => hwords t ht
  | succ n ih =>
    intro words hlen hwords t ht
    rw [extendWords]
    refine ih _ ?_ (fun u hu => ?_) t ?_
    · rw [List.length_append]
      omega
    · rw [List.length_append, List.length_singleton] at hu
      rw [wordAt_append]
      split
      · rename_i heq
        rw [heq, Sha1.schedule, if_neg (by omega), hwords _ (by omega), hwords _ (by omega), hwords _ (by omega), hwords _ (by omega),
          rotl_one]
      · exact hwords u (by omega)
    · rw [List.length_append, List.length_singleton]
      omega

theorem wordAt_blockWords (block : Bytes) {t : Nat} (ht : t < 80) : wordAt (blockWords block) t = Sha1.schedule block t := by
  refine wordAt_extendWords block 64 _ (by simp) (fun u hu => ?_) t (by simpa using ht)
  rw [List.length_map, List.length_range] at hu
  rw [Sha1.schedule, if_pos hu, wordAt, List.getElem?_map, List.getElem?_range hu]
  exact readBe32_word block u

/-! ### Rounds -/

theorem sha1Round_value (block : Bytes) (s : Sha1State) {t : Nat} (ht : t < 80) :
    (sha1Round (blockWords block) s t).value =
      ⟨Sha1.rotl 5 s.a + Sha1.f t s.b s.c s.d + s.e + Sha1.k t + Sha1.schedule block t, s.a, Sha1.rotl 30 s.b, s.c, s.d⟩ := by
  rw [sha1Round, roundMix_eq, wordAt_blockWords block ht, rotl_five, rotl_thirty]
  rfl

theorem rounds_value (block : Bytes) (s : Sha1State) : ∀ n ≤ 80,
    ((List.range n).foldl (sha1Round (blockWords block)) s).value = Sha1.rounds block s.value n := by
  intro n
  induction n with
  | zero => exact fun _ => rfl
  | succ n ih =>
    intro hn
    rw [List.range_succ, List.foldl_append, List.foldl_cons, List.foldl_nil, sha1Round_value block _ (by omega), Sha1.rounds,
      ← ih (by omega)]
    rfl

theorem compressSha1Block_value (s : Sha1State) (block : Bytes) : (compressSha1Block s block).value = Sha1.compress s.value block := by
  rw [compressSha1Block, Sha1.compress, ← rounds_value block s 80 (le_refl _)]
  dsimp only [Sha1State.value]
  rw [UInt32.add_comm s.a, UInt32.add_comm s.b, UInt32.add_comm s.c, UInt32.add_comm s.d, UInt32.add_comm s.e]

theorem foldl_value (blocks : List Bytes) : ∀ s : Sha1State,
    (blocks.foldl compressSha1Block s).value = blocks.foldl Sha1.compress s.value := by
  induction blocks with
  | nil => exact fun _ => rfl
  | cons block blocks ih =>
    intro s
    rw [List.foldl_cons, List.foldl_cons, ih, compressSha1Block_value]

/-! ### Blocks -/

theorem compressBlocks_eq (s : Sha1State) (text : Bytes) :
    compressBlocks s text (text.length / 64) = (Sha1.blocks text).foldl compressSha1Block s := by
  rw [compressBlocks, Sha1.blocks, List.foldl_map]

/-- The blocks compressed where they stand are the blocks of the text cut off after them. -/
theorem compressBlocks_whole (s : Sha1State) (data : Bytes) :
    compressBlocks s data (data.length / 64) = (Sha1.blocks (data.take (data.length / 64 * 64))).foldl compressSha1Block s := by
  have hlen : (data.take (data.length / 64 * 64)).length / 64 = data.length / 64 := by
    rw [List.length_take]
    omega
  rw [← compressBlocks_eq, hlen]
  refine List.foldl_ext _ _ _ (fun state i hi => ?_)
  rw [List.mem_range] at hi
  rw [List.drop_take, List.take_take]
  congr 2
  omega

theorem padZeros_eq (rounds : Nat) : ∀ (tail : Bytes) (n : Nat), n < rounds → (tail.length + n) % 64 = 56 →
    (∀ m < n, (tail.length + m) % 64 ≠ 56) → padZeros rounds tail = tail ++ List.replicate n 0 := by
  induction rounds with
  | zero =>
    intro tail n hn
    omega
  | succ rounds ih =>
    intro tail n hn hfill hleast
    rw [padZeros]
    cases n with
    | zero =>
      have hnow : tail.length % 64 = 56 := hfill
      rw [if_pos hnow]
      simp
    | succ n =>
      have hnow : tail.length % 64 ≠ 56 := hleast 0 (by omega)
      rw [if_neg hnow, ih (tail ++ [0]) n (by omega), List.append_assoc, List.replicate_succ]
      · rfl
      · rw [List.length_append, List.length_singleton]
        omega
      · intro m hm
        have := hleast (m + 1) (by omega)
        rw [List.length_append, List.length_singleton]
        omega

theorem bitLengthBytes_eq (n : Nat) : bitLengthBytes (UInt64.ofNat n * 8) = Sha1.bytes64 (8 * n) := by
  have hbyte : ∀ i < 8, ((UInt64.ofNat n * 8) >>> UInt64.ofNat (56 - 8 * i)).toUInt8 = UInt8.ofNat (8 * n / 256 ^ (7 - i)) := by
    intro i hi
    apply UInt8.toNat_inj.mp
    rw [UInt64.toNat_toUInt8, UInt64.toNat_shiftRight, UInt64.toNat_mul, UInt8.toNat_ofNat', UInt64.toNat_ofNat',
      UInt64.toNat_ofNat', Nat.shiftRight_eq_div_pow]
    have hword : n % 2 ^ 64 * (8 : UInt64).toNat % 2 ^ 64 = 8 * n % 2 ^ 64 := by
      rw [show (8 : UInt64).toNat = 8 from rfl, Nat.mod_mul_mod, Nat.mul_comm]
    rw [hword]
    interval_cases i <;> norm_num <;> omega
  have h := fun i hi => hbyte i hi
  simp only [bitLengthBytes, Sha1.bytes64, List.range_succ, List.range_zero, List.nil_append, List.map_cons, List.map_nil,
    List.cons_append]
  rw [← h 0 (by omega), ← h 1 (by omega), ← h 2 (by omega), ← h 3 (by omega), ← h 4 (by omega), ← h 5 (by omega), ← h 6 (by omega),
    ← h 7 (by omega)]
  rfl

/-- The tail is what the whole blocks leave of the data, and the padding of the whole message. -/
theorem sha1Tail_eq (data : Bytes) : sha1Tail data = data.drop (data.length / 64 * 64) ++ [0x80] ++
    List.replicate (Sha1.zeros data.length) 0 ++ Sha1.bytes64 (8 * data.length) := by
  have hspec := Sha1.zeros_spec data.length
  have hlt := Sha1.zeros_lt data.length
  have hlen : (data.drop (data.length / 64 * 64) ++ [0x80]).length = data.length % 64 + 1 := by
    rw [List.length_append, List.length_drop, List.length_singleton]
    omega
  rw [sha1Tail, padZeros_eq 64 _ (Sha1.zeros data.length) hlt, bitLengthBytes_eq]
  · rw [hlen]
    omega
  · intro m hm hfill
    rw [hlen] at hfill
    have := @Sha1.zeros_le data.length m (by omega)
    omega

theorem sha1Tail_length (data : Bytes) : (sha1Tail data).length = data.length % 64 + 9 + Sha1.zeros data.length := by
  rw [sha1Tail_eq]
  simp only [List.length_append, List.length_drop, List.length_singleton, List.length_replicate, Sha1.bytes64_length]
  omega

/-- One block, or two where the length spills over. -/
theorem sha1Tail_blocks (data : Bytes) : (sha1Tail data).length = if data.length % 64 < 56 then 64 else 128 := by
  have hspec := Sha1.zeros_spec data.length
  have hlt := Sha1.zeros_lt data.length
  rw [sha1Tail_length]
  split <;> omega

theorem pad_eq (data : Bytes) : Sha1.pad data = data.take (data.length / 64 * 64) ++ sha1Tail data := by
  rw [sha1Tail_eq, Sha1.pad]
  simp only [← List.append_assoc]
  rw [List.take_append_drop]

theorem blocks_pad (data : Bytes) :
    Sha1.blocks (Sha1.pad data) = Sha1.blocks (data.take (data.length / 64 * 64)) ++ Sha1.blocks (sha1Tail data) := by
  rw [pad_eq]
  refine Sha1.blocks_append ?_
  rw [List.length_take]
  omega

/-! ### The digest -/

theorem wordBytes_eq (x : UInt32) : wordBytes x = Sha1.wordBytes x := by
  have hbyte : ∀ i < 4, (x >>> UInt32.ofNat (24 - 8 * i)).toUInt8 = UInt8.ofNat (x.toNat / 256 ^ (3 - i)) := by
    intro i hi
    apply UInt8.toNat_inj.mp
    rw [UInt32.toNat_toUInt8, UInt32.toNat_shiftRight, UInt8.toNat_ofNat', UInt32.toNat_ofNat', Nat.shiftRight_eq_div_pow]
    interval_cases i <;> norm_num
  simp only [wordBytes, Sha1.wordBytes, List.range_succ, List.range_zero, List.nil_append, List.map_cons, List.map_nil, List.cons_append]
  rw [← hbyte 0 (by omega), ← hbyte 1 (by omega), ← hbyte 2 (by omega), ← hbyte 3 (by omega)]
  rfl

end Sha1Aux

/-! ## Theorem: the digest is SHA-1 -/

/-- `sha1_digest` is the digest of the standard, which defines it for messages of fewer than `2 ^ 61` bytes. The whole blocks of the data
and the one or two blocks of the tail are the blocks of the padded message, whatever the length is modulo 64, and one block is
compressed as the standard says. -/
theorem sha1_digest_standard (data : Bytes) :
    sha1Digest data = Sha1.digest data ∧
      Sha1.blocks (Sha1.pad data) = Sha1.blocks (data.take (data.length / 64 * 64)) ++ Sha1.blocks (sha1Tail data) ∧
      (sha1Tail data).length = (if data.length % 64 < 56 then 64 else 128) ∧
      ∀ (state : Sha1State) (block : Bytes), (compressSha1Block state block).value = Sha1.compress state.value block := by
  refine ⟨?_, Sha1Aux.blocks_pad data, Sha1Aux.sha1Tail_blocks data, Sha1Aux.compressSha1Block_value⟩
  have hstate : (compressBlocks (compressBlocks sha1InitialState data (data.length / 64)) (sha1Tail data)
      ((sha1Tail data).length / 64)).value = (Sha1.blocks (Sha1.pad data)).foldl Sha1.compress Sha1.initial := by
    rw [Sha1Aux.compressBlocks_eq, Sha1Aux.compressBlocks_whole, ← List.foldl_append, ← Sha1Aux.blocks_pad, Sha1Aux.foldl_value]
    rfl
  rw [sha1Digest, Sha1.digest]
  rw [← hstate]
  simp only [Sha1Aux.wordBytes_eq]
  rfl

end TribiosVfs

import Mathlib

/-!
# SHA-1 (FIPS 180)

The standard's own definition, for messages of whole bytes: the message is padded to whole blocks of 64 bytes, and the compression
function is folded over the blocks. Words are 32 bits wide and addition is modulo `2 ^ 32`.
-/

namespace Sha1

/-- `ROTL^n`. -/
def rotl (n : Nat) (x : UInt32) : UInt32 := UInt32.ofBitVec (x.toBitVec.rotateLeft n)

/-- `Ch`. -/
def ch (x y z : UInt32) : UInt32 := (x &&& y) ^^^ (~~~x &&& z)
/-- `Parity`. -/
def parity (x y z : UInt32) : UInt32 := x ^^^ y ^^^ z
/-- `Maj`. -/
def maj (x y z : UInt32) : UInt32 := (x &&& y) ^^^ (x &&& z) ^^^ (y &&& z)

/-- `f_t`. -/
def f (t : Nat) : UInt32 → UInt32 → UInt32 → UInt32 :=
  if t ≤ 19 then ch else if t ≤ 39 then parity else if t ≤ 59 then maj else parity

/-- `K_t`. -/
def k (t : Nat) : UInt32 :=
  if t ≤ 19 then 0x5a827999 else if t ≤ 39 then 0x6ed9eba1 else if t ≤ 59 then 0x8f1bbcdc else 0xca62c1d6

/-- A word of four bytes, the highest first. -/
def word (b₀ b₁ b₂ b₃ : UInt8) : UInt32 :=
  UInt32.ofNat (b₀.toNat * 2 ^ 24 + b₁.toNat * 2 ^ 16 + b₂.toNat * 2 ^ 8 + b₃.toNat)

/-- The word of a block at an index. -/
def blockWord (block : List UInt8) (t : Nat) : UInt32 :=
  word ((block[4 * t]?).getD 0) ((block[4 * t + 1]?).getD 0) ((block[4 * t + 2]?).getD 0) ((block[4 * t + 3]?).getD 0)

/-- The message schedule `W_t`. -/
def schedule (block : List UInt8) (t : Nat) : UInt32 :=
  if t < 16 then blockWord block t
  else rotl 1 (schedule block (t - 3) ^^^ schedule block (t - 8) ^^^ schedule block (t - 14) ^^^ schedule block (t - 16))

/-- The five working variables, or the five words of a hash value. -/
structure Words where
  a : UInt32
  b : UInt32
  c : UInt32
  d : UInt32
  e : UInt32
  deriving DecidableEq

/-- The working variables before round `t`. -/
def rounds (block : List UInt8) (start : Words) : Nat → Words
  | 0 => start
  | t + 1 =>
    let v := rounds block start t
    ⟨rotl 5 v.a + f t v.b v.c v.d + v.e + k t + schedule block t, v.a, rotl 30 v.b, v.c, v.d⟩

/-- The hash value after a block. -/
def compress (value : Words) (block : List UInt8) : Words :=
  let v := rounds block value 80
  ⟨v.a + value.a, v.b + value.b, v.c + value.c, v.d + value.d, v.e + value.e⟩

/-- The initial hash value. -/
def initial : Words := ⟨0x67452301, 0xefcdab89, 0x98badcfe, 0x10325476, 0xc3d2e1f0⟩

/-! ## Padding -/

theorem exists_zeros (length : Nat) : ∃ zeros, (length + 1 + zeros + 8) % 64 = 0 := by
  refine ⟨(64 - (length + 9) % 64) % 64, ?_⟩
  omega

/-- The least number of zero bytes that fills the last block. -/
def zeros (length : Nat) : Nat := Nat.find (exists_zeros length)

/-- A number as eight bytes, the highest first. -/
def bytes64 (n : Nat) : List UInt8 := (List.range 8).map (fun i => UInt8.ofNat (n / 256 ^ (7 - i)))

/-- The padded message: a one bit, zeros, and the length in bits. -/
def pad (message : List UInt8) : List UInt8 :=
  message ++ [0x80] ++ List.replicate (zeros message.length) 0 ++ bytes64 (8 * message.length)

/-- The blocks of 64 bytes of a text. -/
def blocks (text : List UInt8) : List (List UInt8) :=
  (List.range (text.length / 64)).map (fun i => (text.drop (i * 64)).take 64)

/-- The bytes of a word, the highest first. -/
def wordBytes (x : UInt32) : List UInt8 := (List.range 4).map (fun i => UInt8.ofNat (x.toNat / 256 ^ (3 - i)))

/-- The hash of a message. -/
def digest (message : List UInt8) : List UInt8 :=
  let value := (blocks (pad message)).foldl compress initial
  wordBytes value.a ++ wordBytes value.b ++ wordBytes value.c ++ wordBytes value.d ++ wordBytes value.e

/-! ## Lengths and blocks -/

theorem zeros_spec (length : Nat) : (length + 1 + zeros length + 8) % 64 = 0 := Nat.find_spec (exists_zeros length)

theorem zeros_le {length n : Nat} (h : (length + 1 + n + 8) % 64 = 0) : zeros length ≤ n := Nat.find_min' (exists_zeros length) h

theorem zeros_lt (length : Nat) : zeros length < 64 := by
  have h : (length + 1 + (64 - (length + 9) % 64) % 64 + 8) % 64 = 0 := by omega
  have hle := zeros_le h
  omega

@[simp] theorem bytes64_length (n : Nat) : (bytes64 n).length = 8 := by simp [bytes64]

/-- A text of whole blocks, and what follows it. -/
theorem blocks_append {text rest : List UInt8} (h : text.length % 64 = 0) : blocks (text ++ rest) = blocks text ++ blocks rest := by
  obtain ⟨n, hn⟩ := Nat.dvd_of_mod_eq_zero h
  have hlen : (text ++ rest).length / 64 = text.length / 64 + rest.length / 64 := by
    rw [List.length_append]
    omega
  rw [blocks, hlen, List.range_add, List.map_append, List.map_map]
  refine congrArg₂ (· ++ ·) ?_ ?_
  · refine List.map_congr_left (fun i hi => ?_)
    rw [List.mem_range] at hi
    rw [List.drop_append_of_le_length (by omega), List.take_append_of_le_length (by rw [List.length_drop]; omega)]
  · refine List.map_congr_left (fun i _ => ?_)
    simp only [Function.comp_apply]
    rw [List.drop_append, List.drop_eq_nil_of_le (by omega), List.nil_append]
    congr 2
    omega

end Sha1

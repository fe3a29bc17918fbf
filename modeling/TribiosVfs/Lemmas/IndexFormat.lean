import TribiosVfs.Lemmas.IndexParsing

/-!
# The index format

What an index file is, apart from how it is parsed: the layout of its entries in the versions 2, 3 and 4, its extensions and its
checksum. Each part is read back where it was put.
-/

namespace TribiosVfs

/-! ## The format -/

/-- The bytes of a half word, the highest first. -/
def halfBytes (half : UInt16) : Bytes := [(half >>> 8).toUInt8, half.toUInt8]

/-- An entry of an index. -/
structure IndexEntry where
  stat : GitIndexStat
  mode : UInt32
  objectId : Bytes
  flags : UInt16
  extendedFlags : Option UInt16 := none
  path : Bytes
  deriving DecidableEq, Repr

/-- Whether the flags announce extended flags. -/
def IndexEntry.extended (e : IndexEntry) : Bool := e.flags.toNat / 16384 % 2 = 1

/-- An entry that can stand in an index of a version. -/
structure IndexEntry.WellFormed (version : UInt32) (e : IndexEntry) : Prop where
  objectId : e.objectId.length = 20
  extendedFlags : e.extendedFlags.isSome = e.extended
  version : e.extended = true → 3 ≤ version
  path : 0 ∉ e.path

/-- The ten words of an entry. -/
def IndexEntry.words (e : IndexEntry) : List UInt32 :=
  [e.stat.ctimeSeconds, e.stat.ctimeNanoseconds, e.stat.mtimeSeconds, e.stat.mtimeNanoseconds, e.stat.device, e.stat.inode, e.mode,
    e.stat.uid, e.stat.gid, e.stat.size]

/-- An entry up to its path. -/
def IndexEntry.fixed (e : IndexEntry) : Bytes :=
  e.words.flatMap wordBytes ++ (e.objectId ++ (halfBytes e.flags ++ (e.extendedFlags.map halfBytes).getD []))

/-- The NULs behind so many bytes of an entry in the versions 2 and 3. -/
def padding (length : Nat) : Nat := 8 - length % 8

/-- The bytes of an offset varint before the last one. -/
def encodeStripHigh (value : Nat) : Bytes :=
  if value = 0 then [] else encodeStripHigh ((value - 1) / 128) ++ [UInt8.ofNat (128 + (value - 1) % 128)]
termination_by value
decreasing_by omega

/-- Git's offset varint. -/
def encodeStrip (value : Nat) : Bytes := encodeStripHigh (value / 128) ++ [UInt8.ofNat (value % 128)]

/-- The encodings of an entry behind another one with a path: with padding in the versions 2 and 3, and in version 4 with any
part of the previous path that can be kept. -/
inductive Encodes (version : UInt32) (previous : Bytes) (e : IndexEntry) : Bytes → Prop where
  | padded : version ≠ 4 →
      Encodes version previous e (e.fixed ++ (e.path ++ List.replicate (padding (e.fixed.length + e.path.length)) 0))
  | compressed {strip suffix} : version = 4 → strip ≤ previous.length →
      e.path = previous.take (previous.length - strip) ++ suffix →
      Encodes version previous e (e.fixed ++ (encodeStrip strip ++ (suffix ++ [0])))

/-- The encodings of a list of entries, one after the other. -/
inductive EncodesAll (version : UInt32) : Bytes → List IndexEntry → List Bytes → Prop where
  | nil {previous} : EncodesAll version previous [] []
  | cons {previous e chunk entries chunks} : e.WellFormed version → Encodes version previous e chunk →
      EncodesAll version e.path entries chunks → EncodesAll version previous (e :: entries) (chunk :: chunks)

/-- An extension of an index. -/
structure IndexExtension where
  signature : Bytes
  data : Bytes
  deriving DecidableEq, Repr

/-- The signature of an extension and the number of its bytes. -/
def IndexExtension.shape (x : IndexExtension) : Bytes × Nat := (x.signature, x.data.length)

def IndexExtension.encode (x : IndexExtension) : Bytes :=
  x.signature ++ (wordBytes (UInt32.ofNat x.data.length) ++ x.data)

/-- An index file. -/
def indexFile (version : UInt32) (chunks : List Bytes) (extensions : List IndexExtension) (checksum : Bytes) : Bytes :=
  indexSignature ++ (wordBytes version ++ (wordBytes (UInt32.ofNat chunks.length) ++
    (chunks.flatten ++ (extensions.flatMap IndexExtension.encode ++ checksum))))

/-- The entries of an index as they are parsed: the path, the mode and the start of each. -/
def parsedEntries : Nat → List IndexEntry → List Bytes → List GitIndexEntry
  | offset, e :: entries, chunk :: chunks => ⟨e.path, e.mode, offset⟩ :: parsedEntries (offset + chunk.length) entries chunks
  | _, _, _ => []

/-! ## Parts of a file -/

section parts

variable {bytes part rest : Bytes} {offset : Nat}

/-- A part is what a file has at a position. -/
def LiesAt (bytes : Bytes) (offset : Nat) (part : Bytes) : Prop := ∀ i < part.length, bytes[offset + i]? = part[i]?

theorem LiesAt.left (h : LiesAt bytes offset (part ++ rest)) : LiesAt bytes offset part := by
  intro i hi
  rw [h i (by rw [List.length_append]; omega), List.getElem?_append_left hi]

theorem LiesAt.right (h : LiesAt bytes offset (part ++ rest)) : LiesAt bytes (offset + part.length) rest := by
  intro i hi
  rw [Nat.add_assoc, h (part.length + i) (by rw [List.length_append]; omega), List.getElem?_append_right (by omega),
    Nat.add_sub_cancel_left]

theorem LiesAt.byteAt_eq (h : LiesAt bytes offset part) {i : Nat} (hi : i < part.length) :
    byteAt bytes (offset + i) = byteAt part i := congrArg (·.getD 0) (h i hi)

theorem LiesAt.slice_eq (h : LiesAt bytes offset part) : slice bytes offset (offset + part.length) = part := by
  refine List.ext_getElem? (fun i => ?_)
  unfold slice
  rw [List.getElem?_take, Nat.add_sub_cancel_left, List.getElem?_drop]
  split
  · rename_i hi
    exact h i hi
  · rw [List.getElem?_eq_none (by omega)]

@[simp] theorem length_wordBytes (word : UInt32) : (wordBytes word).length = 4 := rfl

@[simp] theorem length_halfBytes (half : UInt16) : (halfBytes half).length = 2 := rfl

/-- A word is read where it was put. -/
theorem LiesAt.readBe32_eq {word : UInt32} (h : LiesAt bytes offset (wordBytes word)) : readBe32 bytes offset = word := by
  have hword : readBe32 bytes offset = readBe32 (wordBytes word) 0 :=
    readBe32_congr (fun i hi => (h.byteAt_eq hi).trans (congrArg _ (Nat.zero_add i).symm))
  rw [hword]
  exact word_of_bytes word

/-- Words are read where they were put. -/
theorem LiesAt.words_eq {words : List UInt32} (h : LiesAt bytes offset (words.flatMap wordBytes)) {i : Nat} {word : UInt32}
    (hi : words[i]? = some word) : readBe32 bytes (offset + 4 * i) = word := by
  induction words generalizing offset i with
  | nil => cases hi
  | cons first words ih =>
    rw [List.flatMap_cons] at h
    cases i with
    | zero =>
      cases hi
      exact h.left.readBe32_eq
    | succ i =>
      have hrest := ih h.right (by simpa using hi)
      rw [length_wordBytes] at hrest
      rw [← hrest]
      congr 1
      omega

theorem toNat_halfBytes (half : UInt16) : (half >>> 8).toUInt8.toNat * 256 + half.toUInt8.toNat = half.toNat := by
  have hlt := half.toNat_lt
  have hshift : (half >>> 8).toNat = half.toNat / 256 := by
    rw [UInt16.toNat_shiftRight, Nat.shiftRight_eq_div_pow]
    rfl
  rw [UInt16.toNat_toUInt8, UInt16.toNat_toUInt8, hshift]
  omega

theorem LiesAt.half_eq {half : UInt16} (h : LiesAt bytes offset (halfBytes half)) :
    (byteAt bytes offset).toNat * 256 + (byteAt bytes (offset + 1)).toNat = half.toNat := by
  have hhigh := h.byteAt_eq (i := 0) (by simp)
  have hlow := h.byteAt_eq (i := 1) (by simp)
  rw [Nat.add_zero] at hhigh
  rw [hhigh, hlow]
  exact toNat_halfBytes half

end parts

/-! ## Strip lengths -/

theorem toNat_ofNat_lt {n : Nat} (h : n < 256) : (UInt8.ofNat n).toNat = n := by
  rw [UInt8.toNat_ofNat']
  exact Nat.mod_eq_of_lt h

/-- The bytes of a varint before the last one leave the value they stand for, less one. -/
theorem stripTail_high {value : Nat} (hpos : 0 < value) (hbound : value < 2 ^ 57) : ∃ first tail,
    encodeStripHigh value = first :: tail ∧ 128 ≤ first.toNat ∧
    ∀ rest, stripTail (first.toNat % 128) (tail ++ rest) = (stripTail (value - 1) rest).map (fun r => (r.1, r.2 + tail.length)) := by
  induction value using Nat.strongRecOn with
  | ind value ih =>
    have hbyte : (UInt8.ofNat (128 + (value - 1) % 128)).toNat = 128 + (value - 1) % 128 := toNat_ofNat_lt (by omega)
    rw [encodeStripHigh, if_neg (by omega)]
    rcases Nat.eq_zero_or_pos ((value - 1) / 128) with hlast | hmore
    · refine ⟨UInt8.ofNat (128 + (value - 1) % 128), [], ?_, by omega, fun rest => ?_⟩
      · rw [hlast, encodeStripHigh, if_pos rfl]
        rfl
      · rw [hbyte, show (128 + (value - 1) % 128) % 128 = value - 1 by omega, List.nil_append]
        simp
    · obtain ⟨first, tail, hencode, hfirst, hdecode⟩ := ih ((value - 1) / 128) (by omega) hmore (by omega)
      refine ⟨first, tail ++ [UInt8.ofNat (128 + (value - 1) % 128)], ?_, hfirst, fun rest => ?_⟩
      · rw [hencode, List.cons_append]
      · have hstep : stripTail ((value - 1) / 128 - 1) (UInt8.ofNat (128 + (value - 1) % 128) :: rest) =
            (stripTail (value - 1) rest).map (fun r => (r.1, r.2 + 1)) := by
          rw [stripTail, if_neg (by omega), hbyte]
          have hvalue : ((value - 1) / 128 - 1 + 1) * 128 + (128 + (value - 1) % 128) % 128 = value - 1 := by omega
          dsimp only
          rw [if_neg (by omega), hvalue]
        rw [List.append_assoc, List.singleton_append, hdecode, hstep, Option.map_map]
        congr 1
        funext r
        simp only [Function.comp_apply, List.length_append, List.length_singleton]
        congr 1
        omega

/-- A strip length is read back, and the cursor stands behind it. -/
theorem readPathStripLength_encode {bytes : Bytes} {cursor stop strip : Nat} (hbound : strip < 2 ^ 64)
    (h : LiesAt bytes cursor (encodeStrip strip)) (hstop : cursor + (encodeStrip strip).length ≤ stop) :
    readPathStripLength bytes cursor stop = some (strip, cursor + (encodeStrip strip).length) := by
  have hlength : 0 < (encodeStrip strip).length := by simp [encodeStrip]
  have hfile : cursor + (encodeStrip strip).length ≤ bytes.length := by
    have hlast := h ((encodeStrip strip).length - 1) (by omega)
    rw [List.getElem?_eq_getElem (l := encodeStrip strip) (by omega)] at hlast
    have hlt := (List.getElem?_eq_some_iff.mp hlast).1
    omega
  obtain ⟨rest, hrest⟩ : ∃ rest, (bytes.take stop).drop cursor = encodeStrip strip ++ rest := by
    refine ⟨((bytes.take stop).drop cursor).drop (encodeStrip strip).length, ?_⟩
    conv_lhs => rw [← List.take_append_drop (encodeStrip strip).length ((bytes.take stop).drop cursor)]
    congr 1
    refine List.ext_getElem? (fun i => ?_)
    rw [List.getElem?_take, List.getElem?_drop, List.getElem?_take]
    split
    · rename_i hi
      rw [if_pos (by omega)]
      exact h i hi
    · rw [List.getElem?_eq_none (by omega)]
  unfold readPathStripLength
  rw [hrest, encodeStrip]
  have hlast : (UInt8.ofNat (strip % 128)).toNat = strip % 128 := toNat_ofNat_lt (by omega)
  rcases Nat.eq_zero_or_pos (strip / 128) with hshort | hlong
  · rw [hshort, encodeStripHigh, if_pos rfl]
    simp only [List.nil_append, List.cons_append, hlast]
    rw [if_pos (by omega), Nat.mod_eq_of_lt (by omega)]
    rfl
  · obtain ⟨first, tail, hencode, hfirst, hdecode⟩ := stripTail_high hlong (by omega)
    rw [hencode]
    simp only [List.cons_append, List.append_assoc]
    rw [if_neg (by omega), hdecode]
    have hend : stripTail (strip / 128 - 1) (UInt8.ofNat (strip % 128) :: ([] ++ rest)) = some (strip, 1) := by
      rw [stripTail, if_neg (by omega), hlast]
      dsimp only
      rw [if_pos (by omega)]
      congr 2
      omega
    rw [hend]
    simp only [Option.map_some, List.length_cons, List.length_append]
    congr 2
    simp
    omega

/-! ## Entries -/

section entries

variable {version : UInt32} {bytes : Bytes} {stop offset : Nat} {previous : Bytes} {e : IndexEntry}

theorem length_fixed (h : e.WellFormed version) : e.fixed.length = 62 + if e.extended then 2 else 0 := by
  have hid := h.objectId
  have hextended := h.extendedFlags
  unfold IndexEntry.fixed IndexEntry.words
  cases hflags : e.extendedFlags with
  | none =>
    rw [hflags] at hextended
    rw [← hextended]
    simp [hid]
  | some flags =>
    rw [hflags] at hextended
    rw [← hextended]
    simp [hid]

/-- What stands in front of an entry's path is read back. -/
theorem fixed_read (h : e.WellFormed version) (hat : LiesAt bytes offset e.fixed) :
    (∀ i word, e.words[i]? = some word → readBe32 bytes (offset + 4 * i) = word) ∧
    (byteAt bytes (offset + kFlagsOffset)).toNat * 256 + (byteAt bytes (offset + kFlagsOffset + 1)).toNat = e.flags.toNat := by
  have hwords : (e.words.flatMap wordBytes).length = 40 := rfl
  refine ⟨fun i word hi => hat.left.words_eq hi, ?_⟩
  have hflags := hat.right.right.left.half_eq
  rw [hwords, h.objectId] at hflags
  exact hflags

theorem WellFormed_stat (h : e.WellFormed version) (hat : LiesAt bytes offset e.fixed) (entries : List GitIndexEntry)
    (path : Bytes) : readGitIndexStat ⟨bytes, entries⟩ ⟨path, e.mode, offset⟩ = e.stat := by
  have hwords := (fixed_read h hat).1
  have h0 := hwords 0 _ rfl
  rw [Nat.mul_zero, Nat.add_zero] at h0
  simp only [readGitIndexStat, h0, hwords 1 _ rfl, hwords 2 _ rfl, hwords 3 _ rfl, hwords 4 _ rfl, hwords 5 _ rfl, hwords 7 _ rfl,
    hwords 8 _ rfl, hwords 9 _ rfl]

/-- A text without a NUL ends at the first NUL behind it. -/
theorem findTerminator_text {text : Bytes} {start : Nat} (hat : LiesAt bytes start (text ++ [0])) (hnul : 0 ∉ text)
    (hstop : start + text.length < stop) : findTerminator bytes start stop = .ok (start + text.length) := by
  rw [findTerminator_iff]
  refine ⟨by omega, hstop, ?_, ?_⟩
  · rw [hat text.length (by simp), List.getElem?_append_right (le_refl _), Nat.sub_self]
    rfl
  · intro j hlow hhigh hzero
    obtain ⟨i, rfl⟩ := Nat.exists_eq_add_of_le hlow
    have hi : i < text.length := by omega
    rw [hat.left i hi, List.getElem?_eq_getElem hi] at hzero
    exact hnul (Option.some.inj hzero ▸ List.getElem_mem hi)

/-- A path is read back, and the next entry starts behind its entry. -/
theorem readPath_encodes {chunk : Bytes} (h : e.WellFormed version) (hencodes : Encodes version previous e chunk)
    (hat : LiesAt bytes offset chunk) (hstop : offset + chunk.length ≤ stop) (hbound : previous.length < 2 ^ 64) :
    readPath bytes version stop offset (offset + e.fixed.length) previous = .ok (e.path, offset + chunk.length) := by
  unfold readPath
  cases hencodes with
  | padded hversion =>
    rw [if_neg hversion]
    have hpad : List.replicate (padding (e.fixed.length + e.path.length)) (0 : UInt8) =
        [0] ++ List.replicate (padding (e.fixed.length + e.path.length) - 1) 0 := by
      rw [List.singleton_append, ← List.replicate_succ]
      congr 1
      unfold padding
      omega
    have hlength : (e.fixed ++ (e.path ++ List.replicate (padding (e.fixed.length + e.path.length)) 0)).length =
        (e.fixed.length + e.path.length + 8) / 8 * 8 := by
      rw [List.length_append, List.length_append, List.length_replicate, padding]
      omega
    have hpath := hat.right
    rw [hpad, ← List.append_assoc] at hpath
    have hfind : findTerminator bytes (offset + e.fixed.length) stop = .ok (offset + e.fixed.length + e.path.length) := by
      refine findTerminator_text hpath.left h.path ?_
      rw [hlength] at hstop
      omega
    rw [hfind]
    dsimp only [bind, Except.bind]
    rw [hat.right.left.slice_eq, show offset + e.fixed.length - offset + e.path.length = e.fixed.length + e.path.length by omega,
      ← hlength, if_neg (by omega)]
    rfl
  | @compressed strip suffix hversion hstrip hpath =>
    rw [if_pos hversion]
    have hsuffix : 0 ∉ suffix := fun hmem => h.path (by rw [hpath]; exact List.mem_append_right _ hmem)
    have hlength : (e.fixed ++ (encodeStrip strip ++ (suffix ++ [0]))).length =
        e.fixed.length + (encodeStrip strip).length + suffix.length + 1 := by
      simp only [List.length_append, List.length_singleton]
      omega
    have hread := @readPathStripLength_encode _ _ stop strip (by omega) hat.right.left (by omega)
    have hfind := @findTerminator_text _ stop _ _ hat.right.right hsuffix (by omega)
    rw [hread]
    dsimp only
    rw [if_neg (by omega), hfind]
    dsimp only [bind, Except.bind]
    rw [hat.right.right.left.slice_eq, ← hpath, hlength]
    refine congrArg (fun next => Except.ok (e.path, next)) ?_
    omega

theorem readEntry_encodes {chunk : Bytes} (h : e.WellFormed version) (hencodes : Encodes version previous e chunk)
    (hat : LiesAt bytes offset chunk) (hstop : offset + chunk.length ≤ stop) (hfile : stop ≤ bytes.length)
    (hbound : previous.length < 2 ^ 64) :
    readEntry bytes version stop offset previous = .ok (⟨e.path, e.mode, offset⟩, offset + chunk.length) := by
  have hlength := length_fixed h
  obtain ⟨rest, hrest⟩ : ∃ rest, chunk = e.fixed ++ rest := by
    cases hencodes with
    | padded => exact ⟨_, rfl⟩
    | compressed => exact ⟨_, rfl⟩
  have hfixed : LiesAt bytes offset e.fixed := by
    rw [hrest] at hat
    exact hat.left
  obtain ⟨hwords, hflags⟩ := fixed_read h hfixed
  have hlong : 62 ≤ chunk.length := by
    rw [hrest, List.length_append]
    omega
  have hpath := readPath_encodes h hencodes hat hstop hbound
  have hmode : readBe32 bytes (offset + kModeOffset) = e.mode := hwords 6 _ rfl
  unfold readEntry
  rw [if_neg (by unfold kPathOffset; omega), readFlags, if_pos (by unfold kFlagsOffset; omega), hflags]
  dsimp only [bind, Except.bind]
  have hextended : e.flags.toNat / 16384 % 2 = 1 ↔ e.extended = true := by
    unfold IndexEntry.extended
    rw [decide_eq_true_iff]
  rw [if_neg (by
      rintro ⟨hbit, hlow⟩
      exact absurd hlow (UInt32.not_lt.mpr (h.version (hextended.mp hbit)))), readWord_ok (by unfold kModeOffset; omega), hmode]
  have hstart : offset + kPathOffset + (if e.flags.toNat / 16384 % 2 = 1 then 2 else 0) = offset + e.fixed.length := by
    rw [hlength, kPathOffset]
    by_cases hbit : e.flags.toNat / 16384 % 2 = 1
    · rw [if_pos hbit, if_pos (hextended.mp hbit)]
    · rw [if_neg hbit, if_neg (fun hext => hbit (hextended.mpr hext))]
  rw [hstart, hpath]
  rfl

/-- The path of an entry is no longer than what the file has up to the next one. -/
theorem path_length_le {chunk : Bytes} (hencodes : Encodes version previous e chunk) :
    e.path.length ≤ previous.length + chunk.length := by
  cases hencodes with
  | padded =>
    simp only [List.length_append]
    omega
  | @compressed strip suffix _ _ hpath =>
    have hlength := congrArg List.length hpath
    rw [List.length_append, List.length_take] at hlength
    simp only [List.length_append]
    omega

/-- Entries are read back, each where it starts. -/
theorem readEntries_encodes {entries : List IndexEntry} {chunks : List Bytes} (hencodes : EncodesAll version previous entries chunks)
    (hat : LiesAt bytes offset chunks.flatten) (hstop : offset + chunks.flatten.length ≤ stop) (hfile : stop ≤ bytes.length)
    (hprevious : previous.length ≤ offset) (hbound : bytes.length < 2 ^ 64) :
    readEntries bytes version stop chunks.length offset previous =
      .ok (parsedEntries offset entries chunks, offset + chunks.flatten.length) := by
  induction hencodes generalizing offset with
  | nil => rfl
  | @cons previous e chunk entries chunks hwell hencode hrest ih =>
    rw [List.flatten_cons] at hat hstop
    rw [List.length_append] at hstop
    have hentry := readEntry_encodes hwell hencode hat.left (by omega) hfile (by omega)
    have hlength := path_length_le hencode
    have hentries := ih hat.right (by omega) (by omega)
    rw [List.length_cons, readEntries, hentry]
    dsimp only [bind, Except.bind]
    rw [hentries, List.flatten_cons, List.length_append, ← Nat.add_assoc]
    rfl

/-- The stat data of entries is read back. -/
theorem readGitIndexStat_parsed {entries : List IndexEntry} {chunks : List Bytes}
    (hencodes : EncodesAll version previous entries chunks) (hat : LiesAt bytes offset chunks.flatten)
    (index : List GitIndexEntry) :
    (parsedEntries offset entries chunks).map (readGitIndexStat ⟨bytes, index⟩) = entries.map (·.stat) := by
  induction hencodes generalizing offset with
  | nil => rfl
  | @cons previous e chunk entries chunks hwell hencode hrest ih =>
    rw [List.flatten_cons] at hat
    have hfixed : LiesAt bytes offset e.fixed := by
      cases hencode with
      | padded => exact hat.left.left
      | compressed => exact hat.left.left
    rw [parsedEntries, List.map_cons, List.map_cons, WellFormed_stat hwell hfixed, ih hat.right]

end entries

/-! ## Extensions -/

theorem IndexExtension.length_encode {x : IndexExtension} (hsignature : x.signature.length = 4) :
    x.encode.length = 8 + x.data.length := by
  unfold IndexExtension.encode
  simp only [List.length_append, length_wordBytes]
  omega

/-- Where the loop goes on from an extension. -/
theorem skipsTo_encode {bytes : Bytes} {stop offset : Nat} {x : IndexExtension} (hsignature : x.signature.length = 4)
    (hlink : x.signature ≠ linkSignature) (hsize : x.data.length < 2 ^ 32) (hat : LiesAt bytes offset x.encode)
    (hstop : offset + x.encode.length ≤ stop) :
    SkipsTo bytes stop offset (offset + (8 + UInt32.ofNat x.data.length).toNat) := by
  have hlength := x.length_encode hsignature
  have hslice := hat.left.slice_eq
  have hword := hat.right.left.readBe32_eq
  rw [hsignature] at hslice hword
  have hnat : (UInt32.ofNat x.data.length).toNat = x.data.length := by
    rw [UInt32.toNat_ofNat']
    exact Nat.mod_eq_of_lt hsize
  refine ⟨by omega, ?_, ?_, ?_⟩
  · rw [hslice]
    exact hlink
  · rw [hword, hnat]
    omega
  · rw [hword]

/-- An extension that is short enough is skipped. -/
theorem skipsTo_short {bytes : Bytes} {stop offset : Nat} {x : IndexExtension} (hsignature : x.signature.length = 4)
    (hlink : x.signature ≠ linkSignature) (hsize : x.data.length < 4294967288) (hat : LiesAt bytes offset x.encode)
    (hstop : offset + x.encode.length ≤ stop) : SkipsTo bytes stop offset (offset + x.encode.length) := by
  have hskips := skipsTo_encode hsignature hlink (by omega) hat hstop
  have hnext : (8 + UInt32.ofNat x.data.length).toNat = x.encode.length := by
    rw [UInt32.toNat_add, UInt32.toNat_ofNat', x.length_encode hsignature,
      Nat.mod_eq_of_lt (show x.data.length < 2 ^ 32 by omega)]
    exact Nat.mod_eq_of_lt (by simp; omega)
  rw [hnext] at hskips
  exact hskips

/-- Short extensions up to the stop are skipped, in a round each. -/
theorem skipExtensions_encode {bytes : Bytes} {stop offset rounds : Nat} {extensions : List IndexExtension}
    (hwell : ∀ x ∈ extensions, x.signature.length = 4 ∧ x.signature ≠ linkSignature ∧ x.data.length < 4294967288)
    (hat : LiesAt bytes offset (extensions.flatMap IndexExtension.encode))
    (hstop : offset + (extensions.flatMap IndexExtension.encode).length = stop) (hfile : stop ≤ bytes.length)
    (hrounds : extensions.length ≤ rounds) : skipExtensions bytes stop rounds offset = .ok stop := by
  induction extensions generalizing offset rounds with
  | nil =>
    have hend : offset = stop := hstop
    have hlow : ¬offset + 8 ≤ stop := by omega
    cases rounds with
    | zero => rw [skipExtensions, if_neg hlow, hend]
    | succ rounds => rw [skipExtensions, if_neg hlow, hend]
  | cons x extensions ih =>
    rw [List.flatMap_cons] at hat hstop
    rw [List.length_append] at hstop
    obtain ⟨hsignature, hlink, hsize⟩ := hwell x List.mem_cons_self
    have hskips := @skipsTo_short _ stop _ _ hsignature hlink hsize hat.left (by omega)
    cases rounds with
    | zero => simp at hrounds
    | succ rounds =>
      rw [skipExtensions_next hfile hskips]
      refine ih (fun y hy => hwell y (List.mem_cons_of_mem _ hy)) hat.right (by omega) ?_
      rw [List.length_cons] at hrounds
      omega

end TribiosVfs

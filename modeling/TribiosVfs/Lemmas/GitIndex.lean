import TribiosVfs.GitIndex

/-!
# Bytes of an index file

Words written and read back, the stat data of one entry next to that of the others, and where a parsed file has its entries.
-/

namespace TribiosVfs

/-! ## Words -/

theorem byteAt_set (bytes : Bytes) (i j : Nat) (b : UInt8) :
    byteAt (bytes.set i b) j = if i = j ∧ i < bytes.length then b else byteAt bytes j := by
  unfold byteAt
  rw [List.getElem?_set]
  by_cases hij : i = j
  · subst hij
    by_cases hl : i < bytes.length
    · simp [hl]
    · simp [hl]
  · simp [hij]

@[simp] theorem writeBe32_length (bytes : Bytes) (offset : Nat) (value : UInt32) :
    (writeBe32 bytes offset value).length = bytes.length := by
  simp [writeBe32, List.range_succ]

theorem byteAt_writeBe32 {bytes : Bytes} {offset j : Nat} (value : UInt32) (hj : j < offset ∨ offset + 4 ≤ j) :
    byteAt (writeBe32 bytes offset value) j = byteAt bytes j := by
  simp only [writeBe32, List.range_succ, List.range_zero, List.nil_append, List.foldl_append, List.foldl_cons, List.foldl_nil,
    byteAt_set]
  repeat rw [if_neg (by omega)]

/-- A word is read from its four bytes and no others. -/
theorem readBe32_congr {bytes bytes' : Bytes} {offset offset' : Nat}
    (h : ∀ i < 4, byteAt bytes (offset + i) = byteAt bytes' (offset' + i)) : readBe32 bytes offset = readBe32 bytes' offset' := by
  have h0 := h 0 (by omega)
  have h1 := h 1 (by omega)
  have h2 := h 2 (by omega)
  have h3 := h 3 (by omega)
  simp only [readBe32, List.range_succ, List.range_zero, List.nil_append, List.foldl_append, List.foldl_cons, List.foldl_nil,
    h0, h1, h2, h3]

/-- A byte appended to a word that has room for it. -/
theorem toNat_push {v : UInt32} (h : v.toNat < 2 ^ 24) (b : UInt8) :
    ((v <<< 8) ||| b.toUInt32).toNat = v.toNat * 256 + b.toNat := by
  have hb := b.toNat_lt
  rw [UInt32.toNat_or, UInt32.toNat_shiftLeft, UInt8.toNat_toUInt32]
  have hshift : v.toNat <<< ((8 : UInt32).toNat % 32) % 2 ^ 32 = 2 ^ 8 * v.toNat := by
    rw [show (8 : UInt32).toNat % 32 = 8 from rfl, Nat.shiftLeft_eq, Nat.mod_eq_of_lt (by omega)]
    omega
  rw [hshift, ← Nat.two_pow_add_eq_or_of_lt (by omega)]
  omega

/-- The number a word is, byte by byte. -/
theorem readBe32_toNat (bytes : Bytes) (offset : Nat) :
    (readBe32 bytes offset).toNat = (byteAt bytes offset).toNat * 2 ^ 24 + (byteAt bytes (offset + 1)).toNat * 2 ^ 16 +
      (byteAt bytes (offset + 2)).toNat * 2 ^ 8 + (byteAt bytes (offset + 3)).toNat := by
  have h0 := (byteAt bytes offset).toNat_lt
  have h1 := (byteAt bytes (offset + 1)).toNat_lt
  have h2 := (byteAt bytes (offset + 2)).toNat_lt
  simp only [readBe32, List.range_succ, List.range_zero, List.nil_append, List.foldl_append, List.foldl_cons, List.foldl_nil,
    Nat.add_zero]
  have hone : (((0 : UInt32) <<< 8) ||| (byteAt bytes offset).toUInt32).toNat = (byteAt bytes offset).toNat := by
    rw [toNat_push (by decide)]
    simp
  have htwo := toNat_push (v := ((0 : UInt32) <<< 8) ||| (byteAt bytes offset).toUInt32) (by omega) (byteAt bytes (offset + 1))
  rw [hone] at htwo
  have hthree := toNat_push (v := (((0 : UInt32) <<< 8) ||| (byteAt bytes offset).toUInt32) <<< 8 |||
    (byteAt bytes (offset + 1)).toUInt32) (by omega) (byteAt bytes (offset + 2))
  rw [htwo] at hthree
  rw [toNat_push (by omega), hthree]
  omega

theorem getElem_low_byte (x : BitVec 32) (i : Nat) (hi : i < 32) : (x % 256#32)[i] = (decide (i < 8) && x[i]) := by
  simp only [← BitVec.getLsbD_eq_getElem, BitVec.getLsbD, BitVec.toNat_umod]
  exact Nat.testBit_mod_two_pow x.toNat 8 i

/-- A word is put together again from its bytes; the cases are its bits. -/
theorem word_of_bytes (v : UInt32) :
    (((((0 : UInt32) <<< 8 ||| (v >>> (24 - 8 * UInt32.ofNat 0)).toUInt8.toUInt32) <<< 8 |||
      (v >>> (24 - 8 * UInt32.ofNat 1)).toUInt8.toUInt32) <<< 8 ||| (v >>> (24 - 8 * UInt32.ofNat 2)).toUInt8.toUInt32) <<< 8 |||
      (v >>> (24 - 8 * UInt32.ofNat 3)).toUInt8.toUInt32) = v := by
  apply UInt32.toBitVec_inj.1
  apply BitVec.eq_of_getLsbD_eq
  intro i hi
  simp
  interval_cases i <;> simp [getElem_low_byte]

theorem readBe32_writeBe32 {bytes : Bytes} {offset : Nat} (value : UInt32) (h : offset + 4 ≤ bytes.length) :
    readBe32 (writeBe32 bytes offset value) offset = value := by
  have hlen : ∀ (b : Bytes) i c, (b.set i c).length = b.length := fun b i c => List.length_set
  have h0 : offset < bytes.length := by omega
  have h1 : offset + 1 < bytes.length := by omega
  have h2 : offset + 2 < bytes.length := by omega
  have h3 : offset + 3 < bytes.length := by omega
  refine Eq.trans ?_ (word_of_bytes value)
  simp only [readBe32, writeBe32, List.range_succ, List.range_zero, List.nil_append, List.foldl_append, List.foldl_cons,
    List.foldl_nil, byteAt_set, hlen]
  simp [h0, h1, h2, h3]

/-- A word that lies apart from the one written is as it was. -/
theorem readBe32_writeBe32_apart {bytes : Bytes} {offset other : Nat} (value : UInt32)
    (h : other + 4 ≤ offset ∨ offset + 4 ≤ other) : readBe32 (writeBe32 bytes offset value) other = readBe32 bytes other := by
  refine readBe32_congr (fun i hi => byteAt_writeBe32 value ?_)
  omega

/-! ## The stat data of an entry -/

section stat

variable {index : GitIndexFile} {entry other : GitIndexEntry}

@[simp] theorem writeGitIndexStat_length (stat : GitIndexStat) :
    (writeGitIndexStat index entry stat).bytes.length = index.bytes.length := by
  simp [writeGitIndexStat, GitIndexStat.fields]

/-- The bytes of an entry that hold its stat data; the mode lies among them. -/
def GitIndexEntry.holdsStat (entry : GitIndexEntry) (j : Nat) : Prop :=
  entry.offset ≤ j ∧ j < entry.offset + 24 ∨ entry.offset + 28 ≤ j ∧ j < entry.offset + 40

theorem byteAt_writeGitIndexStat (stat : GitIndexStat) {j : Nat} (hj : ¬entry.holdsStat j) :
    byteAt (writeGitIndexStat index entry stat).bytes j = byteAt index.bytes j := by
  unfold GitIndexEntry.holdsStat at hj
  simp only [writeGitIndexStat, GitIndexStat.fields, List.foldl_cons, List.foldl_nil]
  simp (disch := omega) only [byteAt_writeBe32]

/-- What is written is read back. -/
theorem readGitIndexStat_write (stat : GitIndexStat) (h : entry.offset + 40 ≤ index.bytes.length) :
    readGitIndexStat (writeGitIndexStat index entry stat) entry = stat := by
  simp only [readGitIndexStat, writeGitIndexStat, GitIndexStat.fields, List.foldl_cons, List.foldl_nil, Nat.add_zero]
  simp (disch := first | omega | (simp only [writeBe32_length]; omega)) only [readBe32_writeBe32_apart, readBe32_writeBe32]

/-- The stat data of an entry is in its bytes. -/
theorem readGitIndexStat_congr {index' : GitIndexFile}
    (h : ∀ j, entry.offset ≤ j → j < entry.offset + 40 → byteAt index'.bytes j = byteAt index.bytes j) :
    readGitIndexStat index' entry = readGitIndexStat index entry := by
  have hword : ∀ o, o + 4 ≤ 40 → readBe32 index'.bytes (entry.offset + o) = readBe32 index.bytes (entry.offset + o) :=
    fun o ho => readBe32_congr (fun i hi => h _ (by omega) (by omega))
  have h0 := hword 0 (by omega)
  rw [Nat.add_zero] at h0
  simp only [readGitIndexStat, h0, hword 4 (by omega), hword 8 (by omega), hword 12 (by omega), hword 16 (by omega),
    hword 20 (by omega), hword 28 (by omega), hword 32 (by omega), hword 36 (by omega)]

/-- Two entries that do not overlap. -/
def GitIndexEntry.Apart (entry other : GitIndexEntry) : Prop :=
  entry.offset + 40 ≤ other.offset ∨ other.offset + 40 ≤ entry.offset

theorem readGitIndexStat_apart (stat : GitIndexStat) (h : entry.Apart other) :
    readGitIndexStat (writeGitIndexStat index entry stat) other = readGitIndexStat index other := by
  refine readGitIndexStat_congr (fun j hlow hhigh => byteAt_writeGitIndexStat stat ?_)
  unfold GitIndexEntry.Apart at h
  unfold GitIndexEntry.holdsStat
  omega

theorem sealGitIndex_byteAt {j : Nat} (hj : j < index.bytes.length - kChecksumSize) :
    byteAt (sealGitIndex index).bytes j = byteAt index.bytes j := by
  have htake : j < (index.bytes.take (index.bytes.length - kChecksumSize)).length := by
    rw [List.length_take]
    omega
  unfold byteAt
  simp only [sealGitIndex]
  rw [List.getElem?_append_left htake, List.getElem?_take_of_lt hj]

/-- The seal touches no stat data. -/
theorem readGitIndexStat_seal (h : entry.offset + 40 ≤ index.bytes.length - kChecksumSize) :
    readGitIndexStat (sealGitIndex index) entry = readGitIndexStat index entry :=
  readGitIndexStat_congr (fun j _ hj => sealGitIndex_byteAt (by omega))

end stat

/-! ## The seal -/

theorem sha1Digest_length (data : Bytes) : (sha1Digest data).length = kChecksumSize := by
  simp [sha1Digest, wordBytes, kChecksumSize]

theorem sealGitIndex_length {index : GitIndexFile} (h : kChecksumSize ≤ index.bytes.length) :
    (sealGitIndex index).bytes.length = index.bytes.length := by
  simp only [sealGitIndex, List.length_append, List.length_take, sha1Digest_length]
  omega

/-- The seal is the digest of what is before it. -/
theorem sealGitIndex_seal {index : GitIndexFile} (h : kChecksumSize ≤ index.bytes.length) :
    let content := (sealGitIndex index).bytes.take ((sealGitIndex index).bytes.length - kChecksumSize)
    (sealGitIndex index).bytes = content ++ sha1Digest content := by
  have hlen : (index.bytes.take (index.bytes.length - kChecksumSize)).length = index.bytes.length - kChecksumSize := by
    rw [List.length_take]
    omega
  have hcontent : (sealGitIndex index).bytes.take ((sealGitIndex index).bytes.length - kChecksumSize) =
      index.bytes.take (index.bytes.length - kChecksumSize) := by
    rw [sealGitIndex_length h, sealGitIndex, List.take_left' hlen]
  intro content
  show (sealGitIndex index).bytes = _
  rw [show content = _ from hcontent, sealGitIndex]

/-! ## Where the entries are -/

theorem except_bind_ok {ε α β : Type} {x : Except ε α} {f : α → Except ε β} {b : β} (h : (x >>= f) = .ok b) :
    ∃ a, x = .ok a ∧ f a = .ok b := by
  cases x with
  | error e => cases h
  | ok a => exact ⟨a, rfl, h⟩

theorem findTerminator_le {bytes : Bytes} {start stop terminator : Nat} (h : findTerminator bytes start stop = .ok terminator) :
    start ≤ terminator ∧ terminator < stop := by
  unfold findTerminator at h
  split at h
  · rename_i hc
    cases h
    exact ⟨by omega, hc.2.2⟩
  · cases h

theorem readPathStripLength_lt {bytes : Bytes} {cursor stop strip next : Nat}
    (h : readPathStripLength bytes cursor stop = some (strip, next)) : cursor < next := by
  unfold readPathStripLength at h
  split at h
  · cases h
  · split at h
    · cases h
      omega
    · obtain ⟨r, _, hr⟩ := Option.map_eq_some_iff.1 h
      cases hr
      omega

/-- A path ends before the next entry starts. -/
theorem readPath_next {bytes : Bytes} {version : UInt32} {stop offset pathStart next : Nat} {previousPath path : Bytes}
    (h : readPath bytes version stop offset pathStart previousPath = .ok (path, next)) (hstart : offset ≤ pathStart) :
    pathStart < next := by
  unfold readPath at h
  split at h
  · split at h
    · cases h
    · rename_i strip cursor hstrip
      have hcursor := readPathStripLength_lt hstrip
      split at h
      · cases h
      · obtain ⟨terminator, hfind, heq⟩ := except_bind_ok h
        have hle := findTerminator_le hfind
        cases heq
        omega
  · obtain ⟨terminator, hfind, heq⟩ := except_bind_ok h
    dsimp only at heq
    split at heq
    · cases heq
    · cases heq
      omega

theorem readEntry_spec {bytes : Bytes} {version : UInt32} {stop offset next : Nat} {previousPath : Bytes} {entry : GitIndexEntry}
    (h : readEntry bytes version stop offset previousPath = .ok (entry, next)) :
    entry.offset = offset ∧ offset + kPathOffset ≤ stop ∧ offset + kPathOffset ≤ next := by
  unfold readEntry at h
  split at h
  · cases h
  · obtain ⟨flags, _, h⟩ := except_bind_ok h
    dsimp only at h
    split at h
    · cases h
    · obtain ⟨⟨path, next'⟩, hpath, h⟩ := except_bind_ok h
      obtain ⟨mode, _, h⟩ := except_bind_ok h
      cases h
      have hnext := readPath_next hpath (by unfold kPathOffset; omega)
      exact ⟨rfl, by omega, by omega⟩

/-- The entries that are read lie one behind the other below the stop. -/
theorem readEntries_spec {bytes : Bytes} {version : UInt32} {stop : Nat} {count offset : Nat} {previousPath : Bytes}
    {entries : List GitIndexEntry} {last : Nat}
    (h : readEntries bytes version stop count offset previousPath = .ok (entries, last)) :
    (∀ entry ∈ entries, offset ≤ entry.offset ∧ entry.offset + kPathOffset ≤ stop) ∧
      entries.Pairwise (fun a b => a.offset + kPathOffset ≤ b.offset) := by
  induction count generalizing offset previousPath entries with
  | zero =>
    cases h
    exact ⟨by simp, List.Pairwise.nil⟩
  | succ count ih =>
    obtain ⟨⟨entry, next⟩, hentry, h⟩ := except_bind_ok h
    obtain ⟨⟨rest, last'⟩, hrest, h⟩ := except_bind_ok h
    cases h
    obtain ⟨hoffset, hstop, hnext⟩ := readEntry_spec hentry
    obtain ⟨hbounds, hpairwise⟩ := ih hrest
    refine ⟨fun other hother => ?_, List.Pairwise.cons (fun other hother => ?_) hpairwise⟩
    · rcases List.mem_cons.1 hother with rfl | hmem
      · exact ⟨hoffset.ge, hoffset ▸ hstop⟩
      · have := hbounds other hmem
        omega
    · have := hbounds other hother
      omega

/-- The entries of a file lie one behind the other, and before the checksum. -/
structure GitIndexFile.InPlace (index : GitIndexFile) : Prop where
  inside : ∀ entry ∈ index.entries, entry.offset + kPathOffset ≤ index.bytes.length - kChecksumSize
  apart : index.entries.Pairwise (fun a b => a.offset + kPathOffset ≤ b.offset)

theorem parseGitIndex_inPlace {bytes : Bytes} {index : GitIndexFile} (h : parseGitIndex bytes = .ok index) :
    index.bytes = bytes ∧ kChecksumSize ≤ bytes.length ∧ index.InPlace := by
  unfold parseGitIndex parseGitIndexWithin at h
  split at h
  · cases h
  · rename_i hc
    obtain ⟨version, _, h⟩ := except_bind_ok h
    split at h
    · cases h
    · obtain ⟨count, _, h⟩ := except_bind_ok h
      obtain ⟨⟨entries, last⟩, hentries, h⟩ := except_bind_ok h
      obtain ⟨offset, _, h⟩ := except_bind_ok h
      split at h
      · cases h
      · cases h
        obtain ⟨hbounds, hpairwise⟩ := readEntries_spec hentries
        refine ⟨rfl, by simp only [not_or] at hc; omega, fun entry hentry => (hbounds entry hentry).2, hpairwise⟩

end TribiosVfs

import TribiosVfs.Lemmas.IndexParsing

/-!
# Rewriting stat data touches nothing else

What parsing a byte string and rewriting the stat data of its entries owes, and when it is owed: the parser adds the header to an
extension's size in 32 bits, and does not get past an extension whose size brings the sum back to zero.
-/

namespace TribiosVfs

/-- `write_git_index_stat` on entry after entry. -/
def GitIndexFile.writeStats (index : GitIndexFile) (writes : List (GitIndexEntry × GitIndexStat)) : GitIndexFile :=
  writes.foldl (fun index write => writeGitIndexStat index write.1 write.2) index

/-- The stat data an entry was written last. -/
def lastWritten (writes : List (GitIndexEntry × GitIndexStat)) (entry : GitIndexEntry) : Option GitIndexStat :=
  (writes.reverse.find? (fun write => write.1 = entry)).map (·.2)

/-- What a file that was written to and sealed owes: nothing but the stat data of the written entries and the checksum has
changed, the checksum is that of all bytes before it, and the file parses again to the same entries, each with the stat data it
was written last. -/
structure Rewritten (index final : GitIndexFile) (writes : List (GitIndexEntry × GitIndexStat)) : Prop where
  size : final.bytes.length = index.bytes.length
  kept : ∀ j < index.bytes.length - kChecksumSize, (∀ write ∈ writes, ¬write.1.holdsStat j) →
    final.bytes[j]? = index.bytes[j]?
  checksum : final.bytes.drop (index.bytes.length - kChecksumSize) =
    sha1Digest (final.bytes.take (index.bytes.length - kChecksumSize))
  parsed : parseGitIndex final.bytes = .ok ⟨final.bytes, index.entries⟩
  stats : ∀ entry ∈ index.entries, readGitIndexStat ⟨final.bytes, index.entries⟩ entry =
    (lastWritten writes entry).getD (readGitIndexStat index entry)

/-- What a byte string owes: the parser ends and reads nothing outside it, and if it accepts, the stat data of its entries can be
rewritten. -/
structure Rewritable (bytes : Bytes) : Prop where
  ends : ∃ rounds, parseGitIndexWithin rounds bytes ≠ .error .endless
  inside : ∀ rounds, parseGitIndexWithin rounds bytes ≠ .error .outside
  rewrites : ∀ index, parseGitIndex bytes = .ok index → ∀ writes, (∀ write ∈ writes, write.1 ∈ index.entries) →
    Rewritten index (sealGitIndex (index.writeStats writes)) writes

/-- The largest size an extension cannot have: with the eight bytes of its header it is `2 ^ 32`. -/
def kStallSize : Nat := 4294967288

/-- The loop over the extensions of a byte string comes to an extension it does not get past. -/
def Stalls (bytes : Bytes) : Prop := ∃ entries last offset, HasEntries bytes entries last ∧
  Relation.ReflTransGen (SkipsTo bytes (bytes.length - kChecksumSize)) last offset ∧
  slice bytes offset (offset + 4) ≠ linkSignature ∧ (readBe32 bytes (offset + 4)).toNat = kStallSize ∧
  offset + 8 + kStallSize ≤ bytes.length - kChecksumSize

namespace RewriteAux

/-! ## The loop's end -/

/-- The loop stays at a header exactly when its size is the one that wraps to nothing. -/
theorem skipsTo_self_iff {bytes : Bytes} {stop offset : Nat} : SkipsTo bytes stop offset offset ↔
    slice bytes offset (offset + 4) ≠ linkSignature ∧ (readBe32 bytes (offset + 4)).toNat = kStallSize ∧
      offset + 8 + kStallSize ≤ stop := by
  have hsum : (8 + readBe32 bytes (offset + 4)).toNat = (8 + (readBe32 bytes (offset + 4)).toNat) % 2 ^ 32 := UInt32.toNat_add _ _
  have hlt := (readBe32 bytes (offset + 4)).toNat_lt
  unfold kStallSize
  constructor
  · rintro ⟨hheader, hlink, hfits, hnext⟩
    have hsize : (readBe32 bytes (offset + 4)).toNat = 4294967288 := by omega
    exact ⟨hlink, hsize, by omega⟩
  · rintro ⟨hlink, hsize, hfits⟩
    exact ⟨by omega, hlink, by omega, by omega⟩

/-- The parser ends unless the loop over the extensions stalls. -/
theorem ends_iff (bytes : Bytes) : (∃ rounds, parseGitIndexWithin rounds bytes ≠ .error .endless) ↔ ¬Stalls bytes := by
  constructor
  · rintro ⟨rounds, hends⟩ ⟨entries, last, offset, hhas, hwalk, hstall⟩
    refine hends ?_
    rw [parseGitIndexWithin_eq hhas, skipExtensions_stalls (Nat.sub_le _ _) hwalk (skipsTo_self_iff.mpr hstall)]
    rfl
  · intro hstalls
    refine ⟨bytes.length, fun h => ?_⟩
    rcases parseGitIndexWithin_error h with hreported | ⟨entries, last, hhas, hskip⟩
    · exact hreported.2 rfl
    · refine skipExtensions_ends (Nat.sub_le _ _) (by omega) ?_ hskip
      intro offset hwalk hself
      exact hstalls ⟨entries, last, offset, hhas, hwalk, skipsTo_self_iff.mp hself⟩

theorem walk_le {bytes : Bytes} {stop start offset : Nat} (h : Relation.ReflTransGen (SkipsTo bytes stop) start offset) :
    start ≤ offset := by
  induction h with
  | refl => exact le_refl _
  | tail _ hstep ih => exact ih.trans hstep.le

/-- A byte string below four gigabytes does not stall the loop. -/
theorem not_stalls_of_short {bytes : Bytes} (h : bytes.length < 2 ^ 32 + 32) : ¬Stalls bytes := by
  rintro ⟨entries, last, offset, hhas, hwalk, -, -, hfits⟩
  have hle := walk_le hwalk
  have hlast := (readEntries_last hhas.entries).1
  unfold kHeaderSize at hlast
  unfold kStallSize kChecksumSize at hfits
  omega

/-! ## What is written -/

@[simp] theorem writeStats_length (index : GitIndexFile) (writes : List (GitIndexEntry × GitIndexStat)) :
    (index.writeStats writes).bytes.length = index.bytes.length := by
  induction writes generalizing index with
  | nil => rfl
  | cons write writes ih =>
    rw [GitIndexFile.writeStats, List.foldl_cons]
    exact (ih _).trans (writeGitIndexStat_length _)

/-- Bytes outside the stat data of the written entries are as they were. -/
theorem byteAt_writeStats (index : GitIndexFile) {writes : List (GitIndexEntry × GitIndexStat)} {j : Nat}
    (h : ∀ write ∈ writes, ¬write.1.holdsStat j) : byteAt (index.writeStats writes).bytes j = byteAt index.bytes j := by
  induction writes generalizing index with
  | nil => rfl
  | cons write writes ih =>
    rw [GitIndexFile.writeStats, List.foldl_cons]
    refine (ih _ (fun other hother => h other (List.mem_cons_of_mem _ hother))).trans ?_
    exact byteAt_writeGitIndexStat write.2 (h write List.mem_cons_self)

/-- Entry after entry is written; each reads back what it was written last. -/
theorem readGitIndexStat_writeStats {index : GitIndexFile} {entry : GitIndexEntry} {writes : List (GitIndexEntry × GitIndexStat)}
    (hinside : entry.offset + 40 ≤ index.bytes.length) (hapart : ∀ write ∈ writes, write.1 = entry ∨ write.1.Apart entry) :
    readGitIndexStat (index.writeStats writes) entry = (lastWritten writes entry).getD (readGitIndexStat index entry) := by
  induction writes using List.reverseRecOn with
  | nil => rfl
  | append_singleton writes write ih =>
    have hstep : index.writeStats (writes ++ [write]) = writeGitIndexStat (index.writeStats writes) write.1 write.2 := by
      rw [GitIndexFile.writeStats, List.foldl_append]
      rfl
    have hlast : lastWritten (writes ++ [write]) entry = if write.1 = entry then some write.2 else lastWritten writes entry := by
      unfold lastWritten
      rw [List.reverse_append, List.reverse_singleton, List.singleton_append, List.find?_cons]
      by_cases heq : write.1 = entry <;> simp [heq]
    rw [hstep, hlast]
    by_cases heq : write.1 = entry
    · rw [if_pos heq, ← heq]
      refine readGitIndexStat_write write.2 ?_
      rw [writeStats_length, heq]
      exact hinside
    · rw [if_neg heq]
      have hwrite := (hapart write (by simp)).resolve_left heq
      rw [readGitIndexStat_apart write.2 hwrite]
      exact ih (fun other hother => hapart other (by simp [hother]))

/-- Entries of a parsed file do not overlap. -/
theorem apart_of_inPlace {index : GitIndexFile} (h : index.InPlace) {entry other : GitIndexEntry} (hentry : entry ∈ index.entries)
    (hother : other ∈ index.entries) : other = entry ∨ other.Apart entry := by
  have hapart : index.entries.Pairwise (fun a b => a.Apart b) := by
    refine h.apart.imp (fun hab => Or.inl ?_)
    unfold kPathOffset at hab
    omega
  have hsymm : Std.Symm GitIndexEntry.Apart := ⟨fun _ _ hab => hab.symm⟩
  by_cases heq : other = entry
  · exact Or.inl heq
  · exact Or.inr (hapart.forall hother hentry heq)

/-- Writing to the entries of a parsed file and sealing it. -/
theorem rewritten_of_parsed {bytes : Bytes} {index : GitIndexFile} (h : parseGitIndex bytes = .ok index)
    {writes : List (GitIndexEntry × GitIndexStat)} (hwrites : ∀ write ∈ writes, write.1 ∈ index.entries) :
    Rewritten index (sealGitIndex (index.writeStats writes)) writes := by
  obtain ⟨hbytes, hlong, hplace⟩ := parseGitIndex_inPlace h
  subst hbytes
  have hlength : (sealGitIndex (index.writeStats writes)).bytes.length = index.bytes.length := by
    rw [sealGitIndex_length (by rw [writeStats_length]; exact hlong), writeStats_length]
  have hkept : ∀ j < index.bytes.length - kChecksumSize, (∀ write ∈ writes, ¬write.1.holdsStat j) →
      (sealGitIndex (index.writeStats writes)).bytes[j]? = index.bytes[j]? := by
    intro j hj hstat
    refine getElem?_eq_of_byteAt hlength ?_
    rw [sealGitIndex_byteAt (by rw [writeStats_length]; exact hj)]
    exact byteAt_writeStats index hstat
  refine ⟨hlength, hkept, ?_, ?_, ?_⟩
  · have hseal := @sealGitIndex_seal (index.writeStats writes) (by rw [writeStats_length]; exact hlong)
    dsimp only at hseal
    rw [hlength] at hseal
    conv_lhs => rw [hseal]
    refine List.drop_left' ?_
    rw [List.length_take, hlength]
    omega
  · unfold parseGitIndex at h ⊢
    rw [hlength]
    exact parseGitIndexWithin_congr h hlength (fun j hj hstat => hkept j hj (fun write hwrite => hstat _ (hwrites write hwrite)))
  · intro entry hentry
    have hinside := hplace.inside entry hentry
    unfold kPathOffset at hinside
    have hsealed : readGitIndexStat (sealGitIndex (index.writeStats writes)) entry =
        readGitIndexStat (index.writeStats writes) entry := by
      refine readGitIndexStat_seal ?_
      rw [writeStats_length]
      omega
    refine Eq.trans ?_ (hsealed.trans (readGitIndexStat_writeStats (by omega) ?_))
    · rfl
    · intro write hwrite
      exact apart_of_inPlace hplace hentry (hwrites write hwrite)

end RewriteAux

open RewriteAux in
/-- The stat data of a byte string's entries can be rewritten exactly when the loop over its extensions does not come to a size of
`2 ^ 32 - 8` with so many bytes behind it; a byte string below four gigabytes has none. -/
theorem index_rewrite (bytes : Bytes) :
    (Rewritable bytes ↔ ¬Stalls bytes) ∧ (bytes.length < 2 ^ 32 + 32 → Rewritable bytes) := by
  have hrewritable : ¬Stalls bytes → Rewritable bytes := fun hstalls =>
    ⟨(ends_iff bytes).mpr hstalls, fun rounds => parseGitIndexWithin_inside rounds bytes,
      fun index hparse writes hwrites => rewritten_of_parsed hparse hwrites⟩
  exact ⟨⟨fun h => (ends_iff bytes).mp h.ends, hrewritable⟩, fun hshort => hrewritable (not_stalls_of_short hshort)⟩

/-! ## An extension the parser does not get past -/

namespace RewriteWitness

/-- A version 2 header without entries, and the header of an extension `TREE` of `2 ^ 32 - 8` bytes. -/
def header : Bytes := indexSignature ++ [0, 0, 0, 2] ++ [0, 0, 0, 0] ++ [84, 82, 69, 69] ++ [255, 255, 255, 248]

/-- The two headers, and zeros for the extension's data and the checksum. -/
def file (zeros : Nat) : Bytes := header ++ List.replicate zeros 0

theorem length_file (zeros : Nat) : (file zeros).length = 20 + zeros := by
  rw [file, List.length_append, List.length_replicate]
  rfl

theorem header_file (zeros : Nat) : AgreeOn header (file zeros) 0 20 := fun _ _ hj => List.getElem?_append_left hj

theorem file_stalls {zeros : Nat} (h : kStallSize + 20 ≤ zeros) : Stalls (file zeros) := by
  have hheader := header_file zeros
  have hlength := length_file zeros
  unfold kStallSize at h
  have hversion : readBe32 (file zeros) 4 = 2 := ((hheader.mono (by omega) (by omega)).readBe32).trans (by decide)
  have hcount : readBe32 (file zeros) 8 = 0 := ((hheader.mono (by omega) (by omega)).readBe32).trans (by decide)
  have hsize : readBe32 (file zeros) 16 = 4294967288 := ((hheader.mono (by omega) (by omega)).readBe32).trans (by decide)
  refine ⟨[], 12, 12, ⟨by omega, ?_, ?_, ?_, ?_⟩, .refl, ?_, ?_, ?_⟩
  · exact ((hheader.mono (le_refl 0) (by omega)).slice).trans (by decide)
  · rw [hversion]
    decide
  · rw [hversion]
    decide
  · rw [hcount]
    rfl
  · rw [(@AgreeOn.mono _ _ _ _ 12 16 hheader (by omega) (by omega)).slice]
    decide
  · rw [hsize]
    rfl
  · unfold kStallSize kChecksumSize
    omega

end RewriteWitness

open RewriteWitness in
/-- The parser does not end on the file whose one extension has `2 ^ 32 - 8` bytes. -/
theorem index_rewrite_stalls : (∀ rounds, parseGitIndexWithin rounds (file (kStallSize + 20)) = .error .endless) ∧
    ¬Rewritable (file (kStallSize + 20)) := by
  have hstalls := file_stalls (le_refl (kStallSize + 20))
  have hendless : ¬∃ rounds, parseGitIndexWithin rounds (file (kStallSize + 20)) ≠ .error .endless := by
    rw [RewriteAux.ends_iff, not_not]
    exact hstalls
  refine ⟨fun rounds => ?_, fun h => hendless h.ends⟩
  by_contra hne
  exact hendless ⟨rounds, hne⟩

namespace RewriteWitness

/-- A version 2 file with the entries `a` and `b`, which no stat data was recorded for. -/
def twoEntries : Bytes := indexSignature ++ [0, 0, 0, 2] ++ [0, 0, 0, 2] ++
  (List.replicate 60 0 ++ [0, 1, 97, 0]) ++ (List.replicate 60 0 ++ [0, 1, 98, 0]) ++ List.replicate 20 0

def entryA : GitIndexEntry := ⟨[97], 0, 12⟩

def entryB : GitIndexEntry := ⟨[98], 0, 76⟩

/-- Stat data for each of them. -/
def writes : List (GitIndexEntry × GitIndexStat) := [(entryA, { inode := 4, size := 10 }), (entryB, { inode := 5, size := 20 })]

theorem twoEntries_parsed : parseGitIndex twoEntries = .ok ⟨twoEntries, [entryA, entryB]⟩ := by decide +kernel

end RewriteWitness

open RewriteWitness in
/-- A file with two entries and a write to each: it parses again, and each entry reads what it was written. -/
theorem index_rewrite_two :
    Rewritten ⟨twoEntries, [entryA, entryB]⟩ (sealGitIndex (GitIndexFile.writeStats ⟨twoEntries, [entryA, entryB]⟩ writes)) writes :=
  ((index_rewrite twoEntries).2 (by decide +kernel)).rewrites _ twoEntries_parsed writes (by decide)

end TribiosVfs

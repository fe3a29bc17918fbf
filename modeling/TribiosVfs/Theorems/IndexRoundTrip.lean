import TribiosVfs.Lemmas.IndexFormat

/-!
# Index parsing inverts the format

An index file is parsed back to its entries, unless an extension has so many bytes that adding its header overflows 32 bits.
-/

namespace TribiosVfs

/-- A file is parsed back to its entries: their paths, modes and starts, and their stat data. -/
structure Inverts (bytes : Bytes) (entries : List IndexEntry) (chunks : List Bytes) : Prop where
  parsed : parseGitIndex bytes = .ok ⟨bytes, parsedEntries kHeaderSize entries chunks⟩
  stats : (parsedEntries kHeaderSize entries chunks).map (readGitIndexStat ⟨bytes, parsedEntries kHeaderSize entries chunks⟩) =
    entries.map (·.stat)

namespace FormatAux

/-! ## The parts of a file -/

theorem length_of_encodes {version : UInt32} {previous : Bytes} {entries : List IndexEntry} {chunks : List Bytes}
    (h : EncodesAll version previous entries chunks) : chunks.length = entries.length := by
  induction h with
  | nil => rfl
  | cons _ _ _ ih => rw [List.length_cons, List.length_cons, ih]

section parts

variable {version : UInt32} {entries : List IndexEntry} {chunks : List Bytes} {extensions : List IndexExtension} {checksum : Bytes}

theorem length_indexFile : (indexFile version chunks extensions checksum).length =
    12 + chunks.flatten.length + (extensions.flatMap IndexExtension.encode).length + checksum.length := by
  unfold indexFile
  simp only [List.length_append, length_wordBytes]
  have hsignature : indexSignature.length = 4 := rfl
  omega

theorem extensions_lieAt : LiesAt (indexFile version chunks extensions checksum) (12 + chunks.flatten.length)
    (extensions.flatMap IndexExtension.encode) := by
  have hall : LiesAt (indexFile version chunks extensions checksum) 0 (indexFile version chunks extensions checksum) :=
    fun i _ => by rw [Nat.zero_add]
  exact hall.right.right.right.right.left

/-- The parser finds the entries of a file. -/
theorem hasEntries_indexFile (hlow : 2 ≤ version) (hhigh : version ≤ 4) (hencodes : EncodesAll version [] entries chunks)
    (hcount : entries.length < 2 ^ 32) (hchecksum : checksum.length = 20)
    (hsize : (indexFile version chunks extensions checksum).length < 2 ^ 64) :
    HasEntries (indexFile version chunks extensions checksum) (parsedEntries kHeaderSize entries chunks)
      (12 + chunks.flatten.length) := by
  have hall : LiesAt (indexFile version chunks extensions checksum) 0 (indexFile version chunks extensions checksum) :=
    fun i _ => by rw [Nat.zero_add]
  have hlength := @length_indexFile version chunks extensions checksum
  have hversion : readBe32 (indexFile version chunks extensions checksum) 4 = version := hall.right.left.readBe32_eq
  have hnumber : readBe32 (indexFile version chunks extensions checksum) 8 = UInt32.ofNat chunks.length :=
    hall.right.right.left.readBe32_eq
  have hchunks : LiesAt (indexFile version chunks extensions checksum) 12 chunks.flatten := hall.right.right.right.left
  have hentries := length_of_encodes hencodes
  refine ⟨by omega, hall.left.slice_eq, by rw [hversion]; exact hlow, by rw [hversion]; exact hhigh, ?_⟩
  have hnat : (UInt32.ofNat chunks.length).toNat = chunks.length := by
    rw [UInt32.toNat_ofNat']
    exact Nat.mod_eq_of_lt (by omega)
  rw [hversion, hnumber, hnat]
  refine readEntries_encodes hencodes hchunks ?_ (Nat.sub_le _ _) (Nat.zero_le _) hsize
  unfold kChecksumSize kHeaderSize
  omega

/-- A file whose extensions are short enough is parsed back. -/
theorem inverts_of_short (hlow : 2 ≤ version) (hhigh : version ≤ 4) (hencodes : EncodesAll version [] entries chunks)
    (hcount : entries.length < 2 ^ 32)
    (hwell : ∀ x ∈ extensions, x.signature.length = 4 ∧ x.signature ≠ linkSignature ∧ x.data.length < 4294967288)
    (hchecksum : checksum.length = 20) (hsize : (indexFile version chunks extensions checksum).length < 2 ^ 64) :
    Inverts (indexFile version chunks extensions checksum) entries chunks := by
  have hlength := @length_indexFile version chunks extensions checksum
  have hhas := @hasEntries_indexFile _ _ _ extensions _ hlow hhigh hencodes hcount hchecksum hsize
  have hall : LiesAt (indexFile version chunks extensions checksum) 0 (indexFile version chunks extensions checksum) :=
    fun i _ => by rw [Nat.zero_add]
  refine ⟨?_, readGitIndexStat_parsed hencodes hall.right.right.right.left _⟩
  unfold parseGitIndex
  rw [parseGitIndexWithin_iff]
  refine ⟨rfl, _, hhas, ?_⟩
  refine skipExtensions_encode hwell extensions_lieAt ?_ (Nat.sub_le _ _) ?_
  · unfold kChecksumSize
    omega
  · have hmany : extensions.length ≤ (extensions.flatMap IndexExtension.encode).length := by
      clear hwell hlength hhas hall hsize
      induction extensions with
      | nil => exact le_refl 0
      | cons x extensions ih =>
        rw [List.flatMap_cons, List.length_append, List.length_cons]
        have hpos : 1 ≤ x.encode.length := by
          unfold IndexExtension.encode
          simp only [List.length_append, length_wordBytes]
          omega
        omega
    omega

end parts

/-! ## An extension that is too long -/

section long

variable {bytes : Bytes} {stop : Nat}

/-- A loop that comes to a header where it cannot succeed does not succeed. -/
theorem skipExtensions_ne_ok (hstop : stop ≤ bytes.length) {offset reached last : Nat}
    (h : Relation.ReflTransGen (SkipsTo bytes stop) offset reached)
    (hreached : ∀ rounds, skipExtensions bytes stop rounds reached ≠ .ok last) (rounds : Nat) :
    skipExtensions bytes stop rounds offset ≠ .ok last := by
  induction h using Relation.ReflTransGen.head_induction_on generalizing rounds with
  | refl => exact hreached rounds
  | head hnext _ ih =>
    cases rounds with
    | zero =>
      rw [skipExtensions, if_pos hnext.header]
      intro heq
      cases heq
    | succ rounds =>
      rw [skipExtensions_next hstop hnext]
      exact ih rounds

/-- A split index is refused where its header is read. -/
theorem skipExtensions_link {offset last : Nat} (hstop : stop ≤ bytes.length) (hheader : offset + 8 ≤ stop)
    (hlink : slice bytes offset (offset + 4) = linkSignature) (rounds : Nat) :
    skipExtensions bytes stop rounds offset ≠ .ok last := by
  cases rounds with
  | zero =>
    rw [skipExtensions, if_pos hheader]
    intro heq
    cases heq
  | succ rounds =>
    rw [skipExtensions, if_pos hheader, readWord_ok (by omega)]
    intro heq
    have hrefused := (if_pos hlink).symm.trans heq
    cases hrefused

/-- Short extensions are passed. -/
theorem walk_encode {offset : Nat} {extensions : List IndexExtension}
    (hwell : ∀ x ∈ extensions, x.signature.length = 4 ∧ x.signature ≠ linkSignature ∧ x.data.length < 4294967288)
    (hat : LiesAt bytes offset (extensions.flatMap IndexExtension.encode))
    (hstop : offset + (extensions.flatMap IndexExtension.encode).length ≤ stop) :
    Relation.ReflTransGen (SkipsTo bytes stop) offset (offset + (extensions.flatMap IndexExtension.encode).length) := by
  induction extensions generalizing offset with
  | nil => exact .refl
  | cons x extensions ih =>
    rw [List.flatMap_cons] at hat hstop ⊢
    rw [List.length_append] at hstop ⊢
    obtain ⟨hsignature, hlink, hsize⟩ := hwell x List.mem_cons_self
    have hskips := @skipsTo_short _ stop _ _ hsignature hlink hsize hat.left (by omega)
    have hrest := ih (fun y hy => hwell y (List.mem_cons_of_mem _ hy)) hat.right (by omega)
    rw [Nat.add_assoc] at hrest
    exact .head hskips hrest

/-- Data with the signature of a split index at a position, and zeros elsewhere. -/
def misleading (length position : Nat) : Bytes :=
  List.replicate position 0 ++ (linkSignature ++ List.replicate (length - position - 4) 0)

theorem length_misleading {length position : Nat} (h : position + 4 ≤ length) : (misleading length position).length = length := by
  unfold misleading
  have hsignature : linkSignature.length = 4 := rfl
  rw [List.length_append, List.length_append, List.length_replicate, List.length_replicate, hsignature]
  omega

/-- The size the parser reads where an extension of `2 ^ 32 - 8 + excess` bytes with zeros in front takes it. -/
def misreadSize : Nat → Nat
  | 1 => 4294965504
  | 2 => 4294574080
  | 3 => 4211081216
  | _ => 0

/-- The size that is read inside such an extension; the cases are how far its header is displaced. -/
theorem misread {offset excess : Nat} (hpos : 0 < excess) (hexcess : excess < 8)
    (hword : ∀ i < 4, byteAt bytes (offset + 4 + i) = byteAt (wordBytes (UInt32.ofNat (4294967288 + excess))) i)
    (hzeros : ∀ i < excess + misreadSize excess, (byteAt bytes (offset + 8 + i)).toNat = 0) :
    (readBe32 bytes (offset + excess + 4)).toNat = misreadSize excess := by
  have hbyte : ∀ j, 4 ≤ j → j < 8 → byteAt bytes (offset + j) = byteAt (wordBytes (UInt32.ofNat (4294967288 + excess))) (j - 4) := by
    intro j hlow hhigh
    rw [← hword (j - 4) (by omega)]
    congr 1
    omega
  have hzero : ∀ j, 8 ≤ j → j < 8 + (excess + misreadSize excess) → (byteAt bytes (offset + j)).toNat = 0 := by
    intro j hlow hhigh
    rw [← hzeros (j - 8) (by omega)]
    congr 2
    omega
  rw [readBe32_toNat]
  interval_cases excess
  · simp only [Nat.add_assoc, Nat.reduceAdd, hbyte 5 (by omega) (by omega), hbyte 6 (by omega) (by omega),
      hbyte 7 (by omega) (by omega), hzero 8 (by omega) (by decide)]
    decide
  · simp only [Nat.add_assoc, Nat.reduceAdd, hbyte 6 (by omega) (by omega), hbyte 7 (by omega) (by omega),
      hzero 8 (by omega) (by decide), hzero 9 (by omega) (by decide)]
    decide
  · simp only [Nat.add_assoc, Nat.reduceAdd, hbyte 7 (by omega) (by omega), hzero 8 (by omega) (by decide),
      hzero 9 (by omega) (by decide), hzero 10 (by omega) (by decide)]
    decide
  all_goals
    simp only [Nat.add_assoc, Nat.reduceAdd]
    repeat rw [hzero _ (by omega) (by decide)]
    rfl

/-- An extension of `2 ^ 32 - 8` bytes or more, whose data begins with so many zeros and then has the signature of a split index:
the parser goes on inside it, and refuses the file. -/
theorem skipExtensions_long (hstop : stop ≤ bytes.length) {offset excess last : Nat} {x : IndexExtension}
    (hsignature : x.signature.length = 4) (hlink : x.signature ≠ linkSignature) (hexcess : excess < 8)
    (hdata : x.data = misleading (4294967288 + excess) (excess + misreadSize excess)) (hat : LiesAt bytes offset x.encode)
    (hfits : offset + x.encode.length ≤ stop) (rounds : Nat) : skipExtensions bytes stop rounds offset ≠ .ok last := by
  have hmisread : misreadSize excess ≤ 4294965504 := by
    unfold misreadSize
    split <;> omega
  have hlength : x.data.length = 4294967288 + excess := by
    rw [hdata, length_misleading (by omega)]
  have hencode := x.length_encode hsignature
  have hskips := @skipsTo_encode _ stop _ _ hsignature hlink (by omega) hat hfits
  have hwrap : (8 + UInt32.ofNat x.data.length).toNat = excess := by
    rw [UInt32.toNat_add, UInt32.toNat_ofNat', hlength]
    simp
    omega
  rw [hwrap] at hskips
  rcases Nat.eq_zero_or_pos excess with hzero | hpos
  · subst hzero
    rw [skipExtensions_stalls hstop .refl hskips]
    intro heq
    cases heq
  have hposition : LiesAt bytes (offset + 8) x.data := by
    have hright := hat.right.right
    rw [hsignature, length_wordBytes, Nat.add_assoc] at hright
    exact hright
  rw [hdata, misleading] at hposition
  have hzeros : ∀ i < excess + misreadSize excess, (byteAt bytes (offset + 8 + i)).toNat = 0 := by
    intro i hi
    rw [hposition.left.byteAt_eq (by rw [List.length_replicate]; exact hi), byteAt, List.getElem?_replicate, if_pos hi]
    rfl
  have hword := hat.right.left
  rw [hsignature, hlength] at hword
  have hsize : (readBe32 bytes (offset + excess + 4)).toNat = misreadSize excess :=
    misread hpos hexcess (fun i hi => hword.byteAt_eq hi) hzeros
  by_cases hsplit : slice bytes (offset + excess) (offset + excess + 4) = linkSignature
  · exact skipExtensions_ne_ok hstop (.single hskips) (skipExtensions_link hstop (by omega) hsplit) rounds
  · have hmislead : SkipsTo bytes stop (offset + excess) (offset + 8 + (excess + misreadSize excess)) := by
      refine ⟨by omega, hsplit, by omega, ?_⟩
      rw [UInt32.toNat_add, hsize]
      simp
      omega
    have hfound := hposition.right.left.slice_eq
    rw [List.length_replicate] at hfound
    exact skipExtensions_ne_ok hstop (.head hskips (.single hmislead)) (skipExtensions_link hstop (by omega) hfound) rounds

end long

/-! ## Extensions of given shapes -/

theorem length_flatMap_encode {extensions : List IndexExtension} (h : ∀ x ∈ extensions, x.signature.length = 4) :
    (extensions.flatMap IndexExtension.encode).length = ((extensions.map IndexExtension.shape).map (fun s => 8 + s.2)).sum := by
  induction extensions with
  | nil => rfl
  | cons x extensions ih =>
    rw [List.flatMap_cons, List.length_append, x.length_encode (h x List.mem_cons_self),
      ih (fun y hy => h y (List.mem_cons_of_mem _ hy))]
    rfl

/-- An extension of zeros. -/
def zeros (shape : Bytes × Nat) : IndexExtension := ⟨shape.1, List.replicate shape.2 0⟩

theorem shape_zeros (shapes : List (Bytes × Nat)) : (shapes.map zeros).map IndexExtension.shape = shapes := by
  rw [List.map_map]
  refine List.map_id'' (fun shape => ?_) shapes
  unfold zeros IndexExtension.shape Function.comp
  dsimp only
  rw [List.length_replicate]

/-- The first shape that is too long. -/
theorem first_long {shapes : List (Bytes × Nat)} (h : ¬∀ s ∈ shapes, s.2 < 4294967288) : ∃ short long rest,
    shapes = short ++ long :: rest ∧ (∀ s ∈ short, s.2 < 4294967288) ∧ 4294967288 ≤ long.2 := by
  induction shapes with
  | nil => exact absurd (fun _ hs => by cases hs) h
  | cons shape shapes ih =>
    by_cases hshape : shape.2 < 4294967288
    · have hrest : ¬∀ s ∈ shapes, s.2 < 4294967288 := by
        intro hall
        refine h (fun s hs => ?_)
        rcases List.mem_cons.mp hs with rfl | hs
        · exact hshape
        · exact hall s hs
      obtain ⟨short, long, rest, rfl, hshort, hlong⟩ := ih hrest
      refine ⟨shape :: short, long, rest, rfl, fun s hs => ?_, hlong⟩
      rcases List.mem_cons.mp hs with rfl | hs
      · exact hshape
      · exact hshort s hs
    · exact ⟨[], shape, shapes, rfl, fun _ hs => (by cases hs), by omega⟩

/-- With a shape that is too long some file is not parsed back. -/
theorem exists_not_inverts {version : UInt32} {entries : List IndexEntry} {chunks : List Bytes} (hlow : 2 ≤ version)
    (hhigh : version ≤ 4) (hencodes : EncodesAll version [] entries chunks) (hcount : entries.length < 2 ^ 32)
    {short rest : List (Bytes × Nat)} {long : Bytes × Nat}
    (hshapes : ∀ s ∈ short ++ long :: rest, s.1.length = 4 ∧ s.1 ≠ linkSignature ∧ s.2 < 2 ^ 32)
    (hshort : ∀ s ∈ short, s.2 < 4294967288) (hlong : 4294967288 ≤ long.2) {checksum : Bytes} (hchecksum : checksum.length = 20)
    (hsize : 32 + chunks.flatten.length + ((short ++ long :: rest).map (fun s => 8 + s.2)).sum < 2 ^ 64) :
    ∃ extensions : List IndexExtension, extensions.map IndexExtension.shape = short ++ long :: rest ∧
      ¬Inverts (indexFile version chunks extensions checksum) entries chunks := by
  obtain ⟨hsignature, hlink, hword⟩ := hshapes long (by simp)
  obtain ⟨excess, hexcess⟩ := Nat.exists_eq_add_of_le hlong
  have hmisread : misreadSize excess ≤ 4294965504 := by
    unfold misreadSize
    split <;> omega
  let x : IndexExtension := ⟨long.1, misleading long.2 (excess + misreadSize excess)⟩
  have hx : x.shape = long := Prod.ext rfl (length_misleading (by omega))
  refine ⟨short.map zeros ++ x :: rest.map zeros, ?_, ?_⟩
  · rw [List.map_append, List.map_cons, shape_zeros, shape_zeros, hx]
  · intro hinverts
    have hsignatures : ∀ y ∈ short.map zeros ++ x :: rest.map zeros, y.signature.length = 4 := by
      intro y hy
      rcases List.mem_append.mp hy with hy | hy
      · obtain ⟨s, hs, rfl⟩ := List.mem_map.mp hy
        exact (hshapes s (by simp [hs])).1
      · rcases List.mem_cons.mp hy with rfl | hy
        · exact hsignature
        · obtain ⟨s, hs, rfl⟩ := List.mem_map.mp hy
          exact (hshapes s (by simp [hs])).1
    have hlength := @length_indexFile version chunks (short.map zeros ++ x :: rest.map zeros) checksum
    have hall := length_flatMap_encode hsignatures
    rw [List.map_append, List.map_cons, shape_zeros, shape_zeros, hx] at hall
    have hat := @extensions_lieAt version chunks (short.map zeros ++ x :: rest.map zeros) checksum
    rw [List.flatMap_append, List.flatMap_cons] at hat
    have hparts : ((short.map zeros ++ x :: rest.map zeros).flatMap IndexExtension.encode).length =
        ((short.map zeros).flatMap IndexExtension.encode).length + (x.encode.length +
          ((rest.map zeros).flatMap IndexExtension.encode).length) := by
      rw [List.flatMap_append, List.flatMap_cons, List.length_append, List.length_append]
    have hhas := @hasEntries_indexFile _ _ _ (short.map zeros ++ x :: rest.map zeros) _ hlow hhigh hencodes hcount hchecksum (by omega)
    have hwalk := @walk_encode _ ((indexFile version chunks (short.map zeros ++ x :: rest.map zeros) checksum).length -
      kChecksumSize) _ (short.map zeros) (fun y hy => by
        obtain ⟨s, hs, rfl⟩ := List.mem_map.mp hy
        have hs' := hshapes s (by simp [hs])
        refine ⟨hs'.1, hs'.2.1, ?_⟩
        rw [zeros, List.length_replicate]
        exact hshort s hs) hat.left (by unfold kChecksumSize; omega)
    have hparsed := hinverts.parsed
    unfold parseGitIndex at hparsed
    obtain ⟨-, last, hhas', hskip⟩ := parseGitIndexWithin_iff.mp hparsed
    have hlast : last = 12 + chunks.flatten.length := by
      have heq := hhas'.entries.symm.trans hhas.entries
      cases heq
      rfl
    subst hlast
    refine skipExtensions_ne_ok (Nat.sub_le _ _) hwalk (fun rounds => ?_) _ hskip
    refine @skipExtensions_long _ _ (Nat.sub_le _ _) _ excess _ _ hsignature hlink (by omega) ?_ hat.right.left
      (by unfold kChecksumSize; omega) rounds
    rw [← hexcess]

end FormatAux

open FormatAux in
/-- For every list of entries and every encoding of it, and every list of shapes of extensions: all index files with extensions of
these shapes are parsed back exactly when every extension has less than `2 ^ 32 - 8` bytes. The bytes of a file are as many as a
string can have. -/
theorem index_round_trip {version : UInt32} (hlow : 2 ≤ version) (hhigh : version ≤ 4) {entries : List IndexEntry}
    {chunks : List Bytes} (hencodes : EncodesAll version [] entries chunks) (hcount : entries.length < 2 ^ 32)
    {shapes : List (Bytes × Nat)} (hshapes : ∀ s ∈ shapes, s.1.length = 4 ∧ s.1 ≠ linkSignature ∧ s.2 < 2 ^ 32)
    {checksum : Bytes} (hchecksum : checksum.length = 20)
    (hsize : 32 + chunks.flatten.length + (shapes.map (fun s => 8 + s.2)).sum < 2 ^ 64) :
    (∀ extensions : List IndexExtension, extensions.map IndexExtension.shape = shapes →
      Inverts (indexFile version chunks extensions checksum) entries chunks) ↔ ∀ s ∈ shapes, s.2 < 4294967288 := by
  constructor
  · intro hinverts
    by_contra hlong
    obtain ⟨short, long, rest, rfl, hshort, hlong⟩ := first_long hlong
    obtain ⟨extensions, hmap, hfails⟩ :=
      exists_not_inverts hlow hhigh hencodes hcount hshapes hshort hlong hchecksum hsize
    exact hfails (hinverts extensions hmap)
  · rintro hshort extensions rfl
    have hwell : ∀ x ∈ extensions, x.signature.length = 4 ∧ x.signature ≠ linkSignature ∧ x.data.length < 4294967288 := by
      intro x hx
      have hshape := hshapes x.shape (List.mem_map_of_mem hx)
      exact ⟨hshape.1, hshape.2.1, hshort x.shape (List.mem_map_of_mem hx)⟩
    refine inverts_of_short hlow hhigh hencodes hcount hwell hchecksum ?_
    rw [length_indexFile, length_flatMap_encode (fun x hx => (hwell x hx).1)]
    omega

namespace FormatWitness

/-- The signature `TREE`. -/
def treeSignature : Bytes := [84, 82, 69, 69]

/-- A file without entries whose one extension has so many zeros. -/
def treeFile (size : Nat) : Bytes := indexFile 2 [] [FormatAux.zeros (treeSignature, size)] (List.replicate 20 0)

/-- A file with a path `a/b`, and one `a/c` that keeps the `a/`. -/
def first : IndexEntry := { stat := { mtimeSeconds := 7, size := 3 }, mode := 33188, objectId := List.replicate 20 1, flags := 3, path := [97, 47, 98] }
def second : IndexEntry := { stat := { mtimeSeconds := 8, size := 4 }, mode := 33261, objectId := List.replicate 20 2, flags := 16387,
                             extendedFlags := some 8192, path := [97, 47, 99] }

def chunks : List Bytes :=
  [first.fixed ++ (encodeStrip 0 ++ (first.path ++ [0])), second.fixed ++ (encodeStrip 1 ++ ([99] ++ [0]))]

theorem encodes : EncodesAll 4 [] [first, second] chunks :=
  .cons ⟨rfl, rfl, by decide, by decide⟩ (.compressed rfl (le_refl 0) rfl)
    (.cons ⟨rfl, rfl, by decide, by decide⟩ (.compressed rfl (by decide) rfl) .nil)

end FormatWitness

open FormatWitness in
/-- A file whose extension has `2 ^ 32 - 8` zeros is not parsed back: the parser does not end. -/
theorem index_round_trip_stalls : ¬Inverts (treeFile 4294967288) [] [] ∧
    ∀ rounds, parseGitIndexWithin rounds (treeFile 4294967288) = .error .endless := by
  have hencodes : EncodesAll 2 [] [] [] := .nil
  have hchecksum : (List.replicate 20 (0 : UInt8)).length = 20 := List.length_replicate
  have hdata : (FormatAux.zeros (treeSignature, 4294967288)).data.length = 4294967288 := List.length_replicate
  have hlength : (treeFile 4294967288).length = 12 + 0 + (8 + 4294967288) + 20 := by
    rw [treeFile, FormatAux.length_indexFile, hchecksum, List.flatMap_singleton, IndexExtension.length_encode rfl, hdata]
    rfl
  have hhas := @FormatAux.hasEntries_indexFile 2 _ _ [FormatAux.zeros (treeSignature, 4294967288)] _ (by decide) (by decide)
    hencodes (by decide) hchecksum (by rw [← treeFile, hlength]; decide)
  have hat := @FormatAux.extensions_lieAt 2 [] [FormatAux.zeros (treeSignature, 4294967288)] (List.replicate 20 0)
  rw [List.flatMap_singleton] at hat
  have hskips := @skipsTo_encode _ ((treeFile 4294967288).length - kChecksumSize) _ _ rfl (by decide) (by rw [hdata]; decide)
    hat (by rw [hlength, IndexExtension.length_encode rfl, hdata]; decide)
  have hendless : ∀ rounds, parseGitIndexWithin rounds (treeFile 4294967288) = .error .endless := by
    intro rounds
    rw [treeFile, parseGitIndexWithin_eq hhas, skipExtensions_stalls (Nat.sub_le _ _) .refl]
    · rfl
    · rw [hdata, show (8 + UInt32.ofNat 4294967288).toNat = 0 by decide, Nat.add_zero, treeFile] at hskips
      exact hskips
  refine ⟨fun hinverts => ?_, hendless⟩
  have hparsed := hinverts.parsed
  rw [parseGitIndex, hendless] at hparsed
  cases hparsed

open FormatWitness in
/-- A version 4 file with two entries and an extension of three bytes. -/
theorem index_round_trip_small :
    Inverts (indexFile 4 chunks [FormatAux.zeros (treeSignature, 3)] (List.replicate 20 0)) [first, second] chunks :=
  (index_round_trip (by decide) (by decide) encodes (by decide) (by decide) rfl
    (by simp [chunks, encodeStrip, encodeStripHigh, IndexEntry.fixed, IndexEntry.words, first, second, FormatAux.zeros,
      IndexExtension.shape])).mpr (by decide) [FormatAux.zeros (treeSignature, 3)] rfl

end TribiosVfs

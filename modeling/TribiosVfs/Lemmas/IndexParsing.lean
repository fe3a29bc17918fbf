import TribiosVfs.Lemmas.GitIndex

/-!
# What the index parser reads

The loop over the extensions and when it ends, reads that stay inside the file, and the bytes a successful parse depends on: of an
entry, its mode and everything from its flags on.
-/

namespace TribiosVfs

/-! ## The loop over the extensions -/

/-- The loop over the extensions goes on from an offset to the next. -/
structure SkipsTo (bytes : Bytes) (stop offset next : Nat) : Prop where
  header : offset + 8 ≤ stop
  notLink : slice bytes offset (offset + 4) ≠ linkSignature
  fits : (readBe32 bytes (offset + 4)).toNat ≤ stop - offset - 8
  next : next = offset + (8 + readBe32 bytes (offset + 4)).toNat

section loop

variable {bytes : Bytes} {stop : Nat}

theorem readWord_ok {offset : Nat} (h : offset + 4 ≤ bytes.length) : readWord bytes offset = .ok (readBe32 bytes offset) :=
  if_pos h

theorem skipExtensions_next (hstop : stop ≤ bytes.length) {offset next : Nat} (h : SkipsTo bytes stop offset next)
    (rounds : Nat) : skipExtensions bytes stop (rounds + 1) offset = skipExtensions bytes stop rounds next := by
  have hheader := h.header
  have hfits := h.fits
  rw [skipExtensions, if_pos hheader, readWord_ok (by omega)]
  refine (if_neg h.notLink).trans ((if_neg (by omega)).trans ?_)
  rw [h.next]

/-- Where the loop does not go on its result does not depend on the rounds that are left. -/
theorem skipExtensions_halts (hstop : stop ≤ bytes.length) {offset : Nat} (h : ∀ next, ¬SkipsTo bytes stop offset next) :
    ∃ r, r ≠ .error .endless ∧ r ≠ .error .outside ∧ ∀ rounds, skipExtensions bytes stop (rounds + 1) offset = r := by
  by_cases hheader : offset + 8 ≤ stop
  · have hword : readWord bytes (offset + 4) = .ok (readBe32 bytes (offset + 4)) := readWord_ok (by omega)
    by_cases hlink : slice bytes offset (offset + 4) = linkSignature
    · refine ⟨.error .splitIndex, (fun h => by cases h), (fun h => by cases h), fun rounds => ?_⟩
      rw [skipExtensions, if_pos hheader, hword]
      exact if_pos hlink
    · have hfits : stop - offset - 8 < (readBe32 bytes (offset + 4)).toNat := by
        by_contra hle
        exact h _ ⟨hheader, hlink, by omega, rfl⟩
      refine ⟨.error (.truncatedExtension (slice bytes offset (offset + 4))), (fun h => by cases h), (fun h => by cases h),
        fun rounds => ?_⟩
      rw [skipExtensions, if_pos hheader, hword]
      exact (if_neg hlink).trans (if_pos hfits)
  · refine ⟨.ok offset, (fun h => by cases h), (fun h => by cases h), fun rounds => ?_⟩
    rw [skipExtensions, if_neg hheader]

/-- A loop that comes to a header it does not get past never ends. -/
theorem skipExtensions_stalls (hstop : stop ≤ bytes.length) {offset stalled : Nat}
    (h : Relation.ReflTransGen (SkipsTo bytes stop) offset stalled) (hstalls : SkipsTo bytes stop stalled stalled) (rounds : Nat) :
    skipExtensions bytes stop rounds offset = .error .endless := by
  induction h using Relation.ReflTransGen.head_induction_on generalizing rounds with
  | refl =>
    induction rounds with
    | zero => exact if_pos hstalls.header
    | succ rounds ih => rw [skipExtensions_next hstop hstalls, ih]
  | head hnext _ ih =>
    cases rounds with
    | zero => exact if_pos hnext.header
    | succ rounds => rw [skipExtensions_next hstop hnext, ih]

theorem SkipsTo.le {offset next : Nat} (h : SkipsTo bytes stop offset next) : offset ≤ next := by
  have hnext := h.next
  omega

/-- A loop that always gets past its header ends within a round for each byte that is left. -/
theorem skipExtensions_ends (hstop : stop ≤ bytes.length) {offset rounds : Nat} (hrounds : stop ≤ offset + rounds)
    (h : ∀ stalled, Relation.ReflTransGen (SkipsTo bytes stop) offset stalled → ¬SkipsTo bytes stop stalled stalled) :
    skipExtensions bytes stop rounds offset ≠ .error .endless := by
  induction rounds generalizing offset with
  | zero =>
    have hlow : ¬offset + 8 ≤ stop := by omega
    rw [skipExtensions, if_neg hlow]
    intro heq
    cases heq
  | succ rounds ih =>
    by_cases hgoes : ∃ next, SkipsTo bytes stop offset next
    · obtain ⟨next, hnext⟩ := hgoes
      have hne : next ≠ offset := fun heq => h offset .refl (heq ▸ hnext)
      have hle := hnext.le
      rw [skipExtensions_next hstop hnext]
      exact ih (by omega) (fun stalled hwalk => h stalled (.head hnext hwalk))
    · obtain ⟨r, hr, -, heq⟩ := skipExtensions_halts hstop (fun next hnext => hgoes ⟨next, hnext⟩)
      rw [heq rounds]
      exact hr

/-- The loop reads nothing outside the file. -/
theorem skipExtensions_inside (hstop : stop ≤ bytes.length) (rounds offset : Nat) :
    skipExtensions bytes stop rounds offset ≠ .error .outside := by
  induction rounds generalizing offset with
  | zero =>
    rw [skipExtensions]
    split <;> (intro heq; cases heq)
  | succ rounds ih =>
    by_cases hgoes : ∃ next, SkipsTo bytes stop offset next
    · obtain ⟨next, hnext⟩ := hgoes
      rw [skipExtensions_next hstop hnext]
      exact ih next
    · obtain ⟨r, -, hr, heq⟩ := skipExtensions_halts hstop (fun next hnext => hgoes ⟨next, hnext⟩)
      rw [heq rounds]
      exact hr

end loop

/-! ## Bytes that agree -/

/-- Two files have the same bytes from one position to another. -/
def AgreeOn (bytes bytes' : Bytes) (start stop : Nat) : Prop := ∀ j, start ≤ j → j < stop → bytes'[j]? = bytes[j]?

section agree

variable {bytes bytes' : Bytes}

theorem AgreeOn.mono {start stop start' stop' : Nat} (h : AgreeOn bytes bytes' start stop) (hstart : start ≤ start')
    (hstop : stop' ≤ stop) : AgreeOn bytes bytes' start' stop' := fun j hlow hhigh => h j (by omega) (by omega)

theorem getElem?_eq_of_byteAt (hlength : bytes'.length = bytes.length) {j : Nat} (h : byteAt bytes' j = byteAt bytes j) :
    bytes'[j]? = bytes[j]? := by
  unfold byteAt at h
  by_cases hj : j < bytes.length
  · have hj' : j < bytes'.length := by omega
    rw [List.getElem?_eq_getElem hj, List.getElem?_eq_getElem hj'] at h ⊢
    exact congrArg some h
  · rw [List.getElem?_eq_none (by omega), List.getElem?_eq_none (by omega)]

theorem AgreeOn.byteAt {start stop j : Nat} (h : AgreeOn bytes bytes' start stop) (hlow : start ≤ j) (hhigh : j < stop) :
    byteAt bytes' j = byteAt bytes j := congrArg (·.getD 0) (h j hlow hhigh)

theorem AgreeOn.slice {start stop : Nat} (h : AgreeOn bytes bytes' start stop) : slice bytes' start stop = slice bytes start stop := by
  refine List.ext_getElem? (fun i => ?_)
  unfold TribiosVfs.slice
  rw [List.getElem?_take, List.getElem?_take]
  split
  · rw [List.getElem?_drop, List.getElem?_drop]
    exact h _ (by omega) (by omega)
  · rfl

theorem AgreeOn.readBe32 {offset : Nat} (h : AgreeOn bytes bytes' offset (offset + 4)) :
    readBe32 bytes' offset = readBe32 bytes offset :=
  readBe32_congr (fun i hi => h.byteAt (by omega) (by omega))

theorem AgreeOn.readWord {offset : Nat} (hlength : bytes'.length = bytes.length) (h : AgreeOn bytes bytes' offset (offset + 4)) :
    readWord bytes' offset = readWord bytes offset := by
  unfold TribiosVfs.readWord
  rw [h.readBe32, hlength]

end agree

/-! ## Paths -/

/-- The terminator is the first NUL from a position on, and lies below the checksum. -/
theorem findTerminator_iff {bytes : Bytes} {start stop terminator : Nat} :
    findTerminator bytes start stop = .ok terminator ↔ start ≤ terminator ∧ terminator < stop ∧ bytes[terminator]? = some 0 ∧
      ∀ j, start ≤ j → j < terminator → bytes[j]? ≠ some 0 := by
  have hget : ∀ k, (bytes.drop start)[k]? = bytes[start + k]? := fun k => List.getElem?_drop
  unfold findTerminator
  constructor
  · intro h
    split at h
    · rename_i hc
      cases h
      obtain ⟨-, hmem, hstop⟩ := hc
      have hlt := List.idxOf_lt_length_of_mem hmem
      refine ⟨by omega, hstop, ?_, ?_⟩
      · rw [← hget, List.getElem?_eq_getElem hlt, List.getElem_idxOf hlt]
      · intro j hlow hhigh hzero
        obtain ⟨k, rfl⟩ := Nat.exists_eq_add_of_le hlow
        rw [← hget] at hzero
        obtain ⟨hk, hkey⟩ := List.getElem?_eq_some_iff.mp hzero
        have hne := @List.not_of_lt_findIdx _ (fun x => x == (0 : UInt8)) (bytes.drop start) k (by unfold List.idxOf at hhigh; omega)
        simp [hkey] at hne
    · cases h
  · rintro ⟨hle, hstop, hzero, hfirst⟩
    obtain ⟨k, rfl⟩ := Nat.exists_eq_add_of_le hle
    rw [← hget] at hzero
    obtain ⟨hk, hkey⟩ := List.getElem?_eq_some_iff.mp hzero
    have hmem : (0 : UInt8) ∈ bytes.drop start := hkey ▸ List.getElem_mem hk
    have hindex : (bytes.drop start).idxOf 0 = k := by
      have hlt := List.idxOf_lt_length_of_mem hmem
      rcases Nat.lt_trichotomy ((bytes.drop start).idxOf 0) k with hbefore | heq | hafter
      · refine absurd ?_ (hfirst (start + (bytes.drop start).idxOf 0) (by omega) (by omega))
        rw [← hget, List.getElem?_eq_getElem hlt, List.getElem_idxOf hlt]
      · exact heq
      · have hne := @List.not_of_lt_findIdx _ (fun x => x == (0 : UInt8)) (bytes.drop start) k (by unfold List.idxOf at hafter; omega)
        simp [hkey] at hne
    have hlen : start ≤ bytes.length := by
      rw [List.length_drop] at hk
      omega
    rw [if_pos ⟨hlen, hmem, by omega⟩, hindex]

theorem findTerminator_congr {bytes bytes' : Bytes} {start stop terminator : Nat}
    (h : findTerminator bytes start stop = .ok terminator) (hagree : AgreeOn bytes bytes' start (terminator + 1)) :
    findTerminator bytes' start stop = .ok terminator := by
  rw [findTerminator_iff] at h ⊢
  obtain ⟨hle, hstop, hzero, hfirst⟩ := h
  refine ⟨hle, hstop, ?_, ?_⟩
  · rw [hagree _ hle (by omega)]
    exact hzero
  · intro j hlow hhigh
    rw [hagree _ hlow (by omega)]
    exact hfirst j hlow hhigh

/-- A strip length is read from its own bytes. -/
theorem stripTail_congr {value : Nat} {text text' : Bytes} {strip count : Nat} (h : stripTail value text = some (strip, count))
    (hagree : text'.take count = text.take count) : stripTail value text' = some (strip, count) := by
  induction text generalizing value text' strip count with
  | nil => cases h
  | cons byte rest ih =>
    unfold stripTail at h
    split at h
    · cases h
    · rename_i hvalue
      dsimp only at h
      split at h
      · rename_i hbyte
        cases h
        cases text' with
        | nil => simp at hagree
        | cons byte' rest' =>
          have hfirst : byte' = byte := by simpa using hagree
          subst hfirst
          unfold stripTail
          rw [if_neg hvalue]
          exact if_pos hbyte
      · rename_i hbyte
        obtain ⟨⟨strip', count'⟩, hrest, heq⟩ := Option.map_eq_some_iff.mp h
        cases heq
        cases text' with
        | nil => simp at hagree
        | cons byte' rest' =>
          rw [List.take_succ_cons, List.take_succ_cons] at hagree
          obtain ⟨rfl, htail⟩ := List.cons.inj hagree
          unfold stripTail
          rw [if_neg hvalue]
          refine (if_neg hbyte).trans ?_
          rw [ih hrest htail]
          rfl

theorem stripTail_le {value : Nat} {text : Bytes} {strip count : Nat} (h : stripTail value text = some (strip, count)) :
    count ≤ text.length := by
  induction text generalizing value strip count with
  | nil => cases h
  | cons byte rest ih =>
    unfold stripTail at h
    split at h
    · cases h
    · dsimp only at h
      split at h
      · cases h
        simp
      · obtain ⟨⟨strip', count'⟩, hrest, heq⟩ := Option.map_eq_some_iff.mp h
        cases heq
        have hle := ih hrest
        rw [List.length_cons]
        omega

/-- A strip length lies before the stop, and is read from its own bytes. -/
theorem readPathStripLength_congr {bytes bytes' : Bytes} {cursor stop strip next : Nat}
    (h : readPathStripLength bytes cursor stop = some (strip, next)) (hagree : AgreeOn bytes bytes' cursor next) :
    next ≤ stop ∧ readPathStripLength bytes' cursor stop = some (strip, next) := by
  have hget : ∀ (b : Bytes) i, ((b.take stop).drop cursor)[i]? = if cursor + i < stop then b[cursor + i]? else none := by
    intro b i
    rw [List.getElem?_drop, List.getElem?_take]
  have hsame : ((bytes'.take stop).drop cursor).take (next - cursor) = ((bytes.take stop).drop cursor).take (next - cursor) := by
    refine List.ext_getElem? (fun i => ?_)
    rw [List.getElem?_take, List.getElem?_take, hget, hget]
    split
    · rw [hagree (cursor + i) (by omega) (by omega)]
    · rfl
  have hlen : ((bytes.take stop).drop cursor).length ≤ stop - cursor := by
    rw [List.length_drop, List.length_take]
    omega
  unfold readPathStripLength at h ⊢
  split at h
  · cases h
  · rename_i byte rest htext
    rw [htext, List.length_cons] at hlen
    rw [htext] at hsame
    split at h
    · rename_i hbyte
      cases h
      refine ⟨by omega, ?_⟩
      rw [Nat.add_sub_cancel_left, List.take_succ_cons, List.take_zero] at hsame
      cases htext' : (bytes'.take stop).drop cursor with
      | nil =>
        rw [htext'] at hsame
        cases hsame
      | cons byte' rest' =>
        rw [htext', List.take_succ_cons] at hsame
        cases hsame
        exact if_pos hbyte
    · rename_i hbyte
      obtain ⟨⟨strip', count⟩, htail, heq⟩ := Option.map_eq_some_iff.mp h
      cases heq
      have hle := stripTail_le htail
      refine ⟨by omega, ?_⟩
      rw [show cursor + 1 + count - cursor = count + 1 by omega, List.take_succ_cons] at hsame
      cases htext' : (bytes'.take stop).drop cursor with
      | nil =>
        rw [htext'] at hsame
        cases hsame
      | cons byte' rest' =>
        rw [htext', List.take_succ_cons] at hsame
        obtain ⟨rfl, hrest⟩ := List.cons.inj hsame
        refine (if_neg hbyte).trans ?_
        rw [stripTail_congr htail hrest]
        rfl

/-- A path is read from the bytes between its start and the next entry. -/
theorem readPath_congr {bytes bytes' : Bytes} {version : UInt32} {stop offset pathStart next : Nat} {previousPath path : Bytes}
    (h : readPath bytes version stop offset pathStart previousPath = .ok (path, next)) (hstart : offset ≤ pathStart)
    (hagree : AgreeOn bytes bytes' pathStart next) :
    next ≤ stop ∧ readPath bytes' version stop offset pathStart previousPath = .ok (path, next) := by
  unfold readPath at h ⊢
  split at h
  · rename_i hversion
    rw [if_pos hversion]
    split at h
    · cases h
    · rename_i strip cursor hstrip
      have hcursor := readPathStripLength_lt hstrip
      split at h
      · cases h
      · rename_i hlong
        obtain ⟨terminator, hfind, heq⟩ := except_bind_ok h
        have hle := findTerminator_le hfind
        cases heq
        have hstrip' := (readPathStripLength_congr hstrip (hagree.mono (le_refl _) (by omega))).2
        have hfind' := findTerminator_congr hfind (hagree.mono (by omega) (le_refl _))
        have hslice := (@AgreeOn.mono _ _ _ _ cursor terminator hagree (by omega) (by omega)).slice
        refine ⟨by omega, ?_⟩
        rw [hstrip']
        refine (if_neg hlong).trans ?_
        rw [hfind', ← hslice]
        rfl
  · rename_i hversion
    rw [if_neg hversion]
    obtain ⟨terminator, hfind, heq⟩ := except_bind_ok h
    have hle := findTerminator_le hfind
    obtain ⟨-, -, hzero, -⟩ := findTerminator_iff.mp hfind
    have hlength := (List.getElem?_eq_some_iff.mp hzero).1
    dsimp only at heq
    split at heq
    · cases heq
    · rename_i hfits
      have hpath : (slice bytes pathStart terminator).length = terminator - pathStart := by
        unfold slice
        rw [List.length_take, List.length_drop]
        omega
      rw [hpath] at heq hfits
      cases heq
      have hfind' := findTerminator_congr hfind (hagree.mono (le_refl _) (by omega))
      have hslice := (@AgreeOn.mono _ _ _ _ pathStart terminator hagree (le_refl _) (by omega)).slice
      refine ⟨by omega, ?_⟩
      rw [hfind']
      refine (if_neg ?_).trans ?_
      · rw [hslice, hpath]
        exact hfits
      · rw [hslice, hpath]
        rfl

/-! ## Entries -/

/-- An entry is read from its mode and from what lies between its flags and the next entry. -/
theorem readEntry_congr {bytes bytes' : Bytes} {version : UInt32} {stop offset next : Nat} {previousPath : Bytes}
    {entry : GitIndexEntry} (hlength : bytes'.length = bytes.length)
    (h : readEntry bytes version stop offset previousPath = .ok (entry, next))
    (hmode : AgreeOn bytes bytes' (offset + kModeOffset) (offset + kModeOffset + 4))
    (hrest : AgreeOn bytes bytes' (offset + kFlagsOffset) next) :
    next ≤ stop ∧ readEntry bytes' version stop offset previousPath = .ok (entry, next) := by
  unfold readEntry at h ⊢
  split at h
  · cases h
  · rename_i hstop
    rw [if_neg hstop]
    obtain ⟨flags, hflags, h⟩ := except_bind_ok h
    dsimp only at h
    split at h
    · cases h
    · rename_i hextended
      obtain ⟨⟨path, next'⟩, hpath, h⟩ := except_bind_ok h
      obtain ⟨mode, hword, h⟩ := except_bind_ok h
      cases h
      have hnext := readPath_next hpath (by unfold kPathOffset; omega)
      obtain ⟨hnextStop, hpath'⟩ := @readPath_congr _ bytes' _ _ _ _ _ _ _ hpath (by unfold kPathOffset; omega)
        (hrest.mono (by unfold kFlagsOffset kPathOffset; omega) (le_refl _))
      have hflags' : readFlags bytes' offset = .ok flags := by
        rw [← hflags]
        unfold readFlags
        rw [hlength, hrest.byteAt (le_refl _) (by unfold kPathOffset at hnext; unfold kFlagsOffset; omega),
          hrest.byteAt (by omega) (by unfold kPathOffset at hnext; unfold kFlagsOffset; omega)]
      refine ⟨hnextStop, ?_⟩
      rw [hflags']
      refine (if_neg hextended).trans ?_
      rw [hpath', hmode.readWord hlength, hword]
      rfl

/-- The entries that are read end before the position that is left. -/
theorem readEntries_last {bytes : Bytes} {version : UInt32} {stop count offset : Nat} {previousPath : Bytes}
    {entries : List GitIndexEntry} {last : Nat}
    (h : readEntries bytes version stop count offset previousPath = .ok (entries, last)) :
    offset ≤ last ∧ ∀ entry ∈ entries, entry.offset + kPathOffset ≤ last := by
  induction count generalizing offset previousPath entries with
  | zero =>
    cases h
    exact ⟨le_refl _, by simp⟩
  | succ count ih =>
    obtain ⟨⟨entry, next⟩, hentry, h⟩ := except_bind_ok h
    obtain ⟨⟨rest, last'⟩, hrest, h⟩ := except_bind_ok h
    cases h
    obtain ⟨hoffset, -, hnext⟩ := readEntry_spec hentry
    obtain ⟨hle, hbounds⟩ := ih hrest
    refine ⟨by omega, fun other hother => ?_⟩
    rcases List.mem_cons.1 hother with rfl | hmem
    · omega
    · exact hbounds other hmem

/-- Entries are read from everything but their stat data. -/
theorem readEntries_congr {bytes bytes' : Bytes} {version : UInt32} {stop count offset : Nat} {previousPath : Bytes}
    {entries : List GitIndexEntry} {last : Nat} (hlength : bytes'.length = bytes.length)
    (h : readEntries bytes version stop count offset previousPath = .ok (entries, last))
    (hagree : ∀ j, offset ≤ j → j < stop → (∀ entry ∈ entries, ¬entry.holdsStat j) → bytes'[j]? = bytes[j]?) :
    readEntries bytes' version stop count offset previousPath = .ok (entries, last) := by
  induction count generalizing offset previousPath entries with
  | zero => exact h
  | succ count ih =>
    obtain ⟨⟨entry, next⟩, hentry, h⟩ := except_bind_ok h
    obtain ⟨⟨rest, last'⟩, hrest, h⟩ := except_bind_ok h
    cases h
    obtain ⟨hoffset, hstop, hnext⟩ := readEntry_spec hentry
    have hrestBounds := (readEntries_spec hrest).1
    unfold kPathOffset at hstop hnext
    -- below the next entry only this entry's stat data can differ
    have hown : ∀ j, offset ≤ j → j < stop → j < next → ¬entry.holdsStat j → bytes'[j]? = bytes[j]? := by
      intro j hlow hhigh hbefore hstat
      refine hagree j hlow hhigh (fun other hother => ?_)
      rcases List.mem_cons.1 hother with rfl | hmem
      · exact hstat
      · have hbeyond := (hrestBounds other hmem).1
        unfold GitIndexEntry.holdsStat
        omega
    have hnextStop : next ≤ stop := (@readEntry_congr _ bytes _ _ _ _ _ _ rfl hentry (fun _ _ _ => rfl) (fun _ _ _ => rfl)).1
    have hentry' : readEntry bytes' version stop offset previousPath = .ok (entry, next) := by
      refine (readEntry_congr hlength hentry ?_ ?_).2
      · intro j hlow hhigh
        unfold kModeOffset at hlow hhigh
        refine hown j (by omega) (by omega) (by omega) ?_
        unfold GitIndexEntry.holdsStat
        omega
      · intro j hlow hhigh
        unfold kFlagsOffset at hlow
        refine hown j (by omega) (by omega) (by omega) ?_
        unfold GitIndexEntry.holdsStat
        omega
    have hrest' := ih hrest (fun j hlow hhigh hstat => by
      refine hagree j (by omega) hhigh (fun other hother => ?_)
      rcases List.mem_cons.1 hother with rfl | hmem
      · unfold GitIndexEntry.holdsStat
        omega
      · exact hstat other hmem)
    rw [readEntries, hentry']
    dsimp only [bind, Except.bind]
    rw [hrest']
    rfl

/-- The loop over the extensions reads no entry. -/
theorem skipExtensions_congr {bytes bytes' : Bytes} {stop : Nat} (hlength : bytes'.length = bytes.length) (rounds : Nat)
    {offset : Nat} (hagree : AgreeOn bytes bytes' offset stop) :
    skipExtensions bytes' stop rounds offset = skipExtensions bytes stop rounds offset := by
  induction rounds generalizing offset with
  | zero => rfl
  | succ rounds ih =>
    unfold skipExtensions
    split
    · have hslice := (hagree.mono (le_refl offset) (show offset + 4 ≤ stop by omega)).slice
      have hword := (hagree.mono (show offset ≤ offset + 4 by omega) (show offset + 4 + 4 ≤ stop by omega)).readWord hlength
      rw [hslice, hword]
      refine congrArg (readWord bytes (offset + 4) >>= ·) (funext (fun size => ?_))
      have hrest := ih (hagree.mono (show offset ≤ offset + (8 + size).toNat by omega) (le_refl stop))
      rw [hrest]
    · rfl

/-! ## Files -/

/-- A header the parser takes, and the entries behind it. -/
structure HasEntries (bytes : Bytes) (entries : List GitIndexEntry) (last : Nat) : Prop where
  long : 32 ≤ bytes.length
  signature : slice bytes 0 4 = indexSignature
  low : 2 ≤ readBe32 bytes 4
  high : readBe32 bytes 4 ≤ 4
  entries : readEntries bytes (readBe32 bytes 4) (bytes.length - kChecksumSize) (readBe32 bytes 8).toNat kHeaderSize [] =
    .ok (entries, last)

/-- Behind its entries a file is parsed by the loop over the extensions. -/
theorem parseGitIndexWithin_eq {bytes : Bytes} {entries : List GitIndexEntry} {last : Nat} (h : HasEntries bytes entries last)
    (rounds : Nat) : parseGitIndexWithin rounds bytes =
      (skipExtensions bytes (bytes.length - kChecksumSize) rounds last >>= fun offset =>
        if offset ≠ bytes.length - kChecksumSize then .error .trailingBytes else .ok ⟨bytes, entries⟩) := by
  have hlong := h.long
  unfold parseGitIndexWithin
  rw [if_neg (by unfold kHeaderSize kChecksumSize; simp only [not_or, not_not]; exact ⟨by omega, h.signature⟩),
    readWord_ok (by omega)]
  refine (if_neg (by rw [not_or, UInt32.not_lt, UInt32.not_lt]; exact ⟨h.low, h.high⟩)).trans ?_
  rw [readWord_ok (by omega)]
  dsimp only [bind, Except.bind]
  rw [h.entries]
  rfl

/-- What a file that is accepted is: a header, entries, and extensions up to the checksum. -/
theorem parseGitIndexWithin_iff {rounds : Nat} {bytes : Bytes} {index : GitIndexFile} :
    parseGitIndexWithin rounds bytes = .ok index ↔ index.bytes = bytes ∧ ∃ last, HasEntries bytes index.entries last ∧
      skipExtensions bytes (bytes.length - kChecksumSize) rounds last = .ok (bytes.length - kChecksumSize) := by
  constructor
  · intro h
    unfold parseGitIndexWithin at h
    split at h
    · cases h
    · rename_i hheader
      rw [not_or, not_not] at hheader
      obtain ⟨hlong, hsignature⟩ := hheader
      unfold kHeaderSize kChecksumSize at hlong
      rw [readWord_ok (by omega), readWord_ok (by omega)] at h
      dsimp only [bind, Except.bind] at h
      split at h
      · cases h
      · rename_i hsupported
        rw [not_or, UInt32.not_lt, UInt32.not_lt] at hsupported
        obtain ⟨⟨entries, last⟩, hentries, h⟩ := except_bind_ok h
        obtain ⟨offset, hoffset, h⟩ := except_bind_ok h
        split at h
        · cases h
        · rename_i hend
          rw [not_not] at hend
          cases h
          exact ⟨rfl, last, ⟨by omega, hsignature, hsupported.1, hsupported.2, hentries⟩, hend ▸ hoffset⟩
  · rintro ⟨hbytes, last, hhas, hskip⟩
    rw [parseGitIndexWithin_eq hhas, hskip]
    refine (if_neg (not_not.mpr rfl)).trans ?_
    rw [← hbytes]

/-- A file is parsed from everything but its entries' stat data and its checksum. -/
theorem parseGitIndexWithin_congr {rounds : Nat} {bytes bytes' : Bytes} {index : GitIndexFile}
    (h : parseGitIndexWithin rounds bytes = .ok index) (hlength : bytes'.length = bytes.length)
    (hagree : ∀ j, j < bytes.length - kChecksumSize → (∀ entry ∈ index.entries, ¬entry.holdsStat j) →
      bytes'[j]? = bytes[j]?) : parseGitIndexWithin rounds bytes' = .ok ⟨bytes', index.entries⟩ := by
  obtain ⟨-, last, ⟨hlong, hsignature, hlow, hhigh, hentries⟩, hskip⟩ := parseGitIndexWithin_iff.mp h
  have hstart := (readEntries_spec hentries).1
  obtain ⟨hfirst, hlast⟩ := readEntries_last hentries
  unfold kHeaderSize at hstart hfirst
  unfold kPathOffset at hlast
  have hheader : AgreeOn bytes bytes' 0 12 := by
    intro j _ hj
    refine hagree j (by unfold kChecksumSize; omega) (fun entry hentry => ?_)
    have hbeyond := (hstart entry hentry).1
    unfold GitIndexEntry.holdsStat
    omega
  have hversion : readBe32 bytes' 4 = readBe32 bytes 4 := (hheader.mono (by omega) (by omega)).readBe32
  have hcount : readBe32 bytes' 8 = readBe32 bytes 8 := (hheader.mono (by omega) (by omega)).readBe32
  have hsignature' : slice bytes' 0 4 = indexSignature := by
    rw [(hheader.mono (le_refl 0) (by omega)).slice]
    exact hsignature
  have hentries' := readEntries_congr hlength hentries (fun j _ hhigh hstat => hagree j hhigh hstat)
  rw [parseGitIndexWithin_iff]
  refine ⟨rfl, last, ⟨by omega, hsignature', by rw [hversion]; exact hlow, by rw [hversion]; exact hhigh, ?_⟩, ?_⟩
  · rw [hlength, hversion, hcount]
    exact hentries'
  · rw [hlength, skipExtensions_congr hlength rounds]
    · exact hskip
    · intro j hlow hhigh
      refine hagree j hhigh (fun entry hentry => ?_)
      have hbefore := hlast entry hentry
      unfold GitIndexEntry.holdsStat
      omega

/-! ## Reads stay inside the file -/

/-- An error the source reports: no read outside the file, and no loop without an end. -/
def GitIndexError.Reported (x : GitIndexError) : Prop := x ≠ .outside ∧ x ≠ .endless

theorem readPath_error {bytes : Bytes} {version : UInt32} {stop offset pathStart : Nat} {previousPath : Bytes} {x : GitIndexError}
    (h : readPath bytes version stop offset pathStart previousPath = .error x) : x.Reported := by
  have hfind : ∀ start y, findTerminator bytes start stop = .error y → y = .unterminatedPath := by
    intro start y hy
    unfold findTerminator at hy
    split at hy <;> cases hy
    rfl
  unfold readPath at h
  split at h
  · split at h
    · cases h
      exact ⟨by simp, by simp⟩
    · rename_i strip cursor _
      split at h
      · cases h
        exact ⟨by simp, by simp⟩
      · cases hterminator : findTerminator bytes cursor stop with
        | error y =>
          rw [hterminator] at h
          cases h
          rw [hfind _ _ hterminator]
          exact ⟨by simp, by simp⟩
        | ok terminator =>
          rw [hterminator] at h
          cases h
  · cases hterminator : findTerminator bytes pathStart stop with
    | error y =>
      rw [hterminator] at h
      cases h
      rw [hfind _ _ hterminator]
      exact ⟨by simp, by simp⟩
    | ok terminator =>
      rw [hterminator] at h
      dsimp only [bind, Except.bind] at h
      split at h
      · cases h
        exact ⟨by simp, by simp⟩
      · cases h

theorem readEntry_error {bytes : Bytes} {version : UInt32} {stop offset : Nat} {previousPath : Bytes} {x : GitIndexError}
    (hstop : stop ≤ bytes.length) (h : readEntry bytes version stop offset previousPath = .error x) : x.Reported := by
  unfold readEntry at h
  split at h
  · cases h
    exact ⟨by simp, by simp⟩
  · rename_i hfits
    unfold kPathOffset at hfits
    have hflags : readFlags bytes offset = .ok ((byteAt bytes (offset + kFlagsOffset)).toNat * 256 +
        (byteAt bytes (offset + kFlagsOffset + 1)).toNat) := if_pos (by unfold kFlagsOffset; omega)
    have hmode : readWord bytes (offset + kModeOffset) = .ok (readBe32 bytes (offset + kModeOffset)) :=
      readWord_ok (by unfold kModeOffset; omega)
    rw [hflags] at h
    dsimp only [bind, Except.bind] at h
    split at h
    · cases h
      exact ⟨by simp, by simp⟩
    · rw [hmode] at h
      cases hpath : readPath bytes version stop offset (offset + kPathOffset + if ((byteAt bytes (offset + kFlagsOffset)).toNat *
          256 + (byteAt bytes (offset + kFlagsOffset + 1)).toNat) / 16384 % 2 = 1 then 2 else 0) previousPath with
      | ok r =>
        rw [hpath] at h
        cases h
      | error y =>
        rw [hpath] at h
        cases h
        exact readPath_error hpath

theorem readEntries_error {bytes : Bytes} {version : UInt32} {stop count offset : Nat} {previousPath : Bytes} {x : GitIndexError}
    (hstop : stop ≤ bytes.length) (h : readEntries bytes version stop count offset previousPath = .error x) : x.Reported := by
  induction count generalizing offset previousPath with
  | zero => cases h
  | succ count ih =>
    rw [readEntries] at h
    cases hentry : readEntry bytes version stop offset previousPath with
    | ok r =>
      rw [hentry] at h
      dsimp only [bind, Except.bind] at h
      cases hrest : readEntries bytes version stop count r.2 r.1.path with
      | ok s =>
        rw [hrest] at h
        cases h
      | error y =>
        rw [hrest] at h
        cases h
        exact ih hrest
    | error y =>
      rw [hentry] at h
      cases h
      exact readEntry_error hstop hentry

/-- A file that is not parsed to an end or to an error the source reports has the parser in the loop over its extensions. -/
theorem parseGitIndexWithin_error {rounds : Nat} {bytes : Bytes} {x : GitIndexError}
    (h : parseGitIndexWithin rounds bytes = .error x) : x.Reported ∨ ∃ entries last, HasEntries bytes entries last ∧
      skipExtensions bytes (bytes.length - kChecksumSize) rounds last = .error x := by
  have h' := h
  unfold parseGitIndexWithin at h
  split at h
  · cases h
    exact Or.inl ⟨by simp, by simp⟩
  · rename_i hheader
    rw [not_or, not_not] at hheader
    obtain ⟨hlong, hsignature⟩ := hheader
    unfold kHeaderSize kChecksumSize at hlong
    rw [readWord_ok (by omega), readWord_ok (by omega)] at h
    dsimp only [bind, Except.bind] at h
    split at h
    · cases h
      exact Or.inl ⟨by simp, by simp⟩
    · rename_i hsupported
      rw [not_or, UInt32.not_lt, UInt32.not_lt] at hsupported
      cases hentries : readEntries bytes (readBe32 bytes 4) (bytes.length - kChecksumSize) (readBe32 bytes 8).toNat kHeaderSize []
        with
      | error y =>
        rw [hentries] at h
        cases h
        exact Or.inl (readEntries_error (Nat.sub_le _ _) hentries)
      | ok r =>
        have hhas : HasEntries bytes r.1 r.2 := ⟨by omega, hsignature, hsupported.1, hsupported.2, hentries⟩
        rw [parseGitIndexWithin_eq hhas] at h'
        cases hskip : skipExtensions bytes (bytes.length - kChecksumSize) rounds r.2 with
        | error y =>
          rw [hskip] at h'
          cases h'
          exact Or.inr ⟨r.1, r.2, hhas, hskip⟩
        | ok offset =>
          rw [hskip] at h'
          dsimp only [bind, Except.bind] at h'
          split at h'
          · cases h'
            exact Or.inl ⟨by simp, by simp⟩
          · cases h'

/-- Parsing reads nothing outside the file, whatever the bytes are. -/
theorem parseGitIndexWithin_inside (rounds : Nat) (bytes : Bytes) : parseGitIndexWithin rounds bytes ≠ .error .outside := by
  intro h
  rcases parseGitIndexWithin_error h with hreported | ⟨entries, last, -, hskip⟩
  · exact hreported.1 rfl
  · exact skipExtensions_inside (Nat.sub_le _ _) rounds last hskip

end TribiosVfs

import TribiosVfs.Lemmas.GitIndex
import TribiosVfs.Lemmas.Runs
import TribiosVfs.WorkspaceGitIndex

/-!
# Seeded indexes

The index of a new Workspace vouches for no file that Git did not verify, and what it records of those it did is what the mount
reports.
-/

namespace TribiosVfs

/-- An entry's recorded stat data is that of its Base file as the file is now, field for field but for the device. -/
def IndexSeed.Verified (seed : IndexSeed) (index : GitIndexFile) (entry : GitIndexEntry) (st : Node) : Prop :=
  (seed.host.lstat (basePathOf seed.baseDir entry.path)).1 = .ok st ∧
    { readGitIndexStat index entry with device := 0 } = baseStat st (seed.fine st)

/-- The text of a path of a Workspace in the mounted view. -/
def viewPathText (workspace : Name) (path : Bytes) : Bytes := slash :: workspace ++ slash :: path

/-- The mounted view of a path is a given file of the Base tree, in a Workspace with the salt of the seed. -/
def IndexSeed.Views (seed : IndexSeed) (w : World) (m : Manager) (path : Bytes) (st : Node) : Prop :=
  ∃ workspace relative e, parseProjectViewPath path = .inside workspace relative ∧
    m.findActiveWorkspaceEngine workspace = some e ∧ e.inodeSalt = seed.inodeSalt ∧ e.lookup w.host relative = some (.base, st)

/-- The stat data of a reply of the mount, with zero nanoseconds and the device of the seed. -/
def IndexSeed.reported (seed : IndexSeed) (reply : ViewStat) : GitIndexStat where
  ctimeSeconds := UInt32.ofInt reply.ctime
  mtimeSeconds := UInt32.ofInt reply.mtime
  device := seed.device
  inode := reply.ino.toUInt32
  uid := UInt32.ofNat reply.uid
  gid := UInt32.ofNat reply.gid
  size := UInt32.ofNat reply.size

namespace SeedAux

variable {seed : IndexSeed}

/-! ## The loop -/

/-- What the loop leaves of an entry's stat data. -/
def newStat (seed : IndexSeed) (index : GitIndexFile) (entry : GitIndexEntry) : GitIndexStat :=
  if isSeedableMode entry.mode then seed.translated (readGitIndexStat index entry) entry.path else readGitIndexStat index entry

theorem translateEntry_length (index : GitIndexFile) (entry : GitIndexEntry) :
    (seed.translateEntry index entry).bytes.length = index.bytes.length := by
  unfold IndexSeed.translateEntry
  split
  · exact writeGitIndexStat_length _
  · rfl

theorem translateEntry_self {index : GitIndexFile} {entry : GitIndexEntry} (h : entry.offset + 40 ≤ index.bytes.length) :
    readGitIndexStat (seed.translateEntry index entry) entry = newStat seed index entry := by
  unfold IndexSeed.translateEntry newStat
  split
  · exact readGitIndexStat_write _ h
  · rfl

theorem translateEntry_apart {index : GitIndexFile} {entry other : GitIndexEntry} (h : entry.Apart other) :
    readGitIndexStat (seed.translateEntry index entry) other = readGitIndexStat index other := by
  unfold IndexSeed.translateEntry
  split
  · exact readGitIndexStat_apart _ h
  · rfl

theorem translateEntry_byteAt {index : GitIndexFile} {entry : GitIndexEntry} {j : Nat}
    (h : isSeedableMode entry.mode = true → ¬entry.holdsStat j) :
    byteAt (seed.translateEntry index entry).bytes j = byteAt index.bytes j := by
  unfold IndexSeed.translateEntry
  split
  · rename_i hmode
    exact byteAt_writeGitIndexStat _ (h hmode)
  · rfl

theorem translate_length (entries : List GitIndexEntry) (index : GitIndexFile) :
    (entries.foldl seed.translateEntry index).bytes.length = index.bytes.length := by
  induction entries generalizing index with
  | nil => rfl
  | cons entry entries ih => rw [List.foldl_cons, ih, translateEntry_length]

theorem translate_byteAt {entries : List GitIndexEntry} {index : GitIndexFile} {j : Nat}
    (h : ∀ entry ∈ entries, isSeedableMode entry.mode = true → ¬entry.holdsStat j) :
    byteAt (entries.foldl seed.translateEntry index).bytes j = byteAt index.bytes j := by
  induction entries generalizing index with
  | nil => rfl
  | cons entry entries ih =>
    rw [List.foldl_cons, ih (fun other hother => h other (List.mem_cons_of_mem _ hother)),
      translateEntry_byteAt (h entry List.mem_cons_self)]

theorem translate_apart {entries : List GitIndexEntry} {index : GitIndexFile} {other : GitIndexEntry}
    (h : ∀ entry ∈ entries, entry.Apart other) :
    readGitIndexStat (entries.foldl seed.translateEntry index) other = readGitIndexStat index other := by
  induction entries generalizing index with
  | nil => rfl
  | cons entry entries ih =>
    rw [List.foldl_cons, ih (fun other hother => h other (List.mem_cons_of_mem _ hother)),
      translateEntry_apart (h entry List.mem_cons_self)]

/-- Each entry gets the stat data its own old one leads to; the induction is on the entries that are left, and what is written of
one is apart from the others. -/
theorem translate_read {entries : List GitIndexEntry} {index : GitIndexFile}
    (hinside : ∀ entry ∈ entries, entry.offset + 40 ≤ index.bytes.length)
    (hapart : entries.Pairwise (fun a b => a.offset + kPathOffset ≤ b.offset)) {entry : GitIndexEntry} (hentry : entry ∈ entries) :
    readGitIndexStat (entries.foldl seed.translateEntry index) entry = newStat seed index entry := by
  induction entries generalizing index with
  | nil => exact absurd hentry List.not_mem_nil
  | cons first entries ih =>
    obtain ⟨hfirst, hrest⟩ := List.pairwise_cons.1 hapart
    rw [List.foldl_cons]
    rcases List.mem_cons.1 hentry with rfl | hmem
    · rw [translate_apart, translateEntry_self (hinside _ List.mem_cons_self)]
      intro other hother
      have := hfirst other hother
      unfold kPathOffset at this
      exact Or.inr (by omega)
    · have hfar := hfirst entry hmem
      unfold kPathOffset at hfar
      have hold : readGitIndexStat (seed.translateEntry index first) entry = readGitIndexStat index entry :=
        translateEntry_apart (Or.inl (by omega))
      rw [ih (fun other hother => by
        rw [translateEntry_length]
        exact hinside other (List.mem_cons_of_mem _ hother)) hrest hmem, newStat, newStat, hold]

/-! ## One entry -/

theorem matches_iff {recorded : GitIndexStat} {st : Node} :
    seed.matches recorded st = true ↔ { recorded with device := 0 } = baseStat st (seed.fine st) := by
  rw [IndexSeed.matches, decide_eq_true_eq]

theorem translated_unverified {index : GitIndexFile} {entry : GitIndexEntry} (h : ∀ st, ¬seed.Verified index entry st) :
    seed.translated (readGitIndexStat index entry) entry.path = {} := by
  unfold IndexSeed.translated
  split
  · rename_i st hst
    rw [if_neg (fun hm => h st ⟨hst, matches_iff.mp hm⟩)]
  · rfl

theorem translated_verified {index : GitIndexFile} {entry : GitIndexEntry} {st : Node} (h : seed.Verified index entry st) :
    seed.translated (readGitIndexStat index entry) entry.path = seed.workspaceStat st := by
  unfold IndexSeed.translated
  rw [h.1]
  exact if_pos (matches_iff.mpr h.2)

/-- What the mount reports of a Base file is what the seed makes of it. -/
theorem getattr_reports {w : World} {m : Manager} {path : Bytes} {st : Node} (h : seed.Views w m path st) :
    ∃ reply, (triGetattr seed.daemon m path).run exec w = (.ok reply, w) ∧ seed.reported reply = seed.workspaceStat st := by
  obtain ⟨workspace, relative, e, hparse, hfind, hsalt, hlookup⟩ := h
  have hcanonical : RelPath.Canonical relative := by
    have hpath := normalizeRelative_canonical path
    unfold parseProjectViewPath at hparse
    split at hparse
    · cases hparse
    · rename_i hnormal
      cases hparse
      rw [hnormal] at hpath
      exact fun n hn => hpath n (List.mem_cons_of_mem _ hn)
  have hrun : (triGetattr seed.daemon m path).run exec w =
      (.ok (populateStatFromAttributes seed.daemon (attrFromStat st (e.workspaceInodeFor st) false)), w) := by
    unfold triGetattr
    rw [hparse]
    dsimp only
    rw [hfind]
    refine (Prog.run_bind exec (getattr relative.text e) _ w).trans ?_
    rw [Runs.run_getattr, normalizeRelative_text hcanonical, hlookup]
    rfl
  refine ⟨_, hrun, ?_⟩
  simp only [IndexSeed.reported, IndexSeed.workspaceStat, populateStatFromAttributes, attrFromStat, Engine.workspaceInodeFor, hsalt]

end SeedAux

open SeedAux in
/-- Of every index that parses, the seeded one differs in the stat data of its files and symlinks and in the checksum alone. An
entry whose recorded stat data is not that of its Base file has none afterwards; the others have what the mount reports of that file
in a Workspace of the seed's salt. The checksum is that of the rest. -/
theorem seeded_index_sound (seed : IndexSeed) (bytes : Bytes) (index : GitIndexFile) (hparse : parseGitIndex bytes = .ok index) :
    ∃ sealed, seed.translateVerifiedEntries bytes = .ok sealed ∧
      (∀ entry ∈ index.entries, isSeedableMode entry.mode = true → (∀ st, ¬seed.Verified index entry st) →
        readGitIndexStat ⟨sealed, index.entries⟩ entry = {}) ∧
      (∀ entry ∈ index.entries, isSeedableMode entry.mode = true → ∀ st, seed.Verified index entry st →
        ∀ w m workspace, seed.Views w m (viewPathText workspace entry.path) st →
          ∃ reply, (triGetattr seed.daemon m (viewPathText workspace entry.path)).run exec w = (.ok reply, w) ∧
            readGitIndexStat ⟨sealed, index.entries⟩ entry = seed.reported reply) ∧
      (∀ entry ∈ index.entries, isSeedableMode entry.mode = false →
        readGitIndexStat ⟨sealed, index.entries⟩ entry = readGitIndexStat index entry) ∧
      sealed.length = bytes.length ∧
      (∀ j < bytes.length - kChecksumSize, (∀ entry ∈ index.entries, isSeedableMode entry.mode = true → ¬entry.holdsStat j) →
        byteAt sealed j = byteAt bytes j) ∧
      sealed = sealed.take (sealed.length - kChecksumSize) ++ sha1Digest (sealed.take (sealed.length - kChecksumSize)) := by
  obtain ⟨rfl, hlong, hplace⟩ := parseGitIndex_inPlace hparse
  have hinside : ∀ entry ∈ index.entries, entry.offset + 40 ≤ index.bytes.length - kChecksumSize := by
    intro entry hentry
    have := hplace.inside entry hentry
    unfold kPathOffset at this
    omega
  let translated := index.entries.foldl seed.translateEntry index
  have hlen : translated.bytes.length = index.bytes.length := translate_length index.entries index
  have hread : ∀ entry ∈ index.entries, readGitIndexStat ⟨(sealGitIndex translated).bytes, index.entries⟩ entry =
      newStat seed index entry := by
    intro entry hentry
    have hbelow := hinside entry hentry
    have hseal : readGitIndexStat (sealGitIndex translated) entry = readGitIndexStat translated entry :=
      readGitIndexStat_seal (hlen.symm ▸ hbelow)
    rw [← translate_read (fun other hother => (hinside other hother).trans (Nat.sub_le _ _)) hplace.apart hentry, ← hseal]
    rfl
  refine ⟨(sealGitIndex translated).bytes, ?_, ?_, ?_, ?_, ?_, ?_, ?_⟩
  · rw [IndexSeed.translateVerifiedEntries, hparse]
    rfl
  · intro entry hentry hmode hnone
    rw [hread entry hentry, newStat, if_pos hmode, translated_unverified hnone]
  · intro entry hentry hmode st hverified w m workspace hviews
    obtain ⟨reply, hrun, hreported⟩ := getattr_reports hviews
    refine ⟨reply, hrun, ?_⟩
    rw [hread entry hentry, newStat, if_pos hmode, translated_verified hverified, hreported]
  · intro entry hentry hmode
    rw [hread entry hentry, newStat, if_neg (by simp [hmode])]
  · rw [sealGitIndex_length (hlen.symm ▸ hlong), hlen]
  · intro j hj hapart
    rw [sealGitIndex_byteAt (hlen.symm ▸ hj), translate_byteAt hapart]
  · exact sealGitIndex_seal (hlen.symm ▸ hlong)

namespace SeedWitness

/-- The Base directory `/b` with two files in it: `a`, and `b`, which has changed a second later. -/
def host : Host where
  tree := ⟨[([[98]], ⟨.dir, ⟨3, 493, 0, 0, 0⟩⟩), ([[98], [97]], ⟨.file [], ⟨4, 420, 5, 5, 5⟩⟩),
    ([[98], [98]], ⟨.file [], ⟨5, 420, 6, 6, 6⟩⟩)]⟩
  nextIno := 6
  now := 9
  umask := 18

def seed : IndexSeed where
  host := host
  fine := fun _ => {}
  baseDir := [[98]]
  inodeSalt := 7
  device := 11
  daemon := ⟨501, 20⟩

/-- The Workspace `w` over that Base directory. -/
def m : Manager where
  paths := ⟨[], []⟩
  engines := [([119], { workspace := [119], inodeSalt := 7, baseDir := [[98]], upperDir := [[117]] })]

def entry : GitIndexEntry := ⟨[97], 33188, 12⟩

def changed : GitIndexEntry := ⟨[98], 33188, 76⟩

/-- An entry as Git recorded it at second 5. -/
def encoded (ino name : UInt8) : Bytes :=
  [0, 0, 0, 5, 0, 0, 0, 0, 0, 0, 0, 5, 0, 0, 0, 0, 0, 0, 0, 1, 0, 0, 0, ino, 0, 0, 129, 164, 0, 0, 0, 0, 0, 0, 0, 0, 0, 0, 0, 0] ++
    List.replicate 20 0 ++ [0, 1, name, 0]

/-- An index of version 2 with the entries `a` and `b`. -/
def bytes : Bytes := [68, 73, 82, 67, 0, 0, 0, 2, 0, 0, 0, 2] ++ encoded 4 97 ++ encoded 5 98 ++ List.replicate 20 0

theorem changed_unverified : ∀ st, ¬seed.Verified ⟨bytes, [entry, changed]⟩ changed st := by
  rintro st ⟨hst, hsame⟩
  have hnow : (seed.host.lstat (basePathOf seed.baseDir changed.path)).1 = .ok ⟨.file [], ⟨5, 420, 6, 6, 6⟩⟩ := by decide +kernel
  rw [hnow, Except.ok.injEq] at hst
  subst hst
  revert hsame
  decide +kernel

/-- The entry that is verified gets what the mount reports, and the one that has changed gets nothing. -/
theorem reports : ∃ sealed, seed.translateVerifiedEntries bytes = .ok sealed ∧
    (∃ reply, (triGetattr seed.daemon m (viewPathText [119] [97])).run exec { host := host, store := { committed := {} } } =
      (.ok reply, { host := host, store := { committed := {} } }) ∧
      readGitIndexStat ⟨sealed, [entry, changed]⟩ entry = seed.reported reply) ∧
    readGitIndexStat ⟨sealed, [entry, changed]⟩ changed = {} := by
  obtain ⟨sealed, hsealed, hunverified, hverified, -⟩ := seeded_index_sound seed bytes ⟨bytes, [entry, changed]⟩ (by decide +kernel)
  refine ⟨sealed, hsealed, ?_, hunverified changed (by simp) (by decide) changed_unverified⟩
  exact hverified entry (by simp) (by decide) ⟨.file [], ⟨4, 420, 5, 5, 5⟩⟩ ⟨by decide +kernel, by decide +kernel⟩ _ m [119]
    ⟨[119], [[97]], _, by decide +kernel, rfl, rfl, by decide +kernel⟩

end SeedWitness

end TribiosVfs

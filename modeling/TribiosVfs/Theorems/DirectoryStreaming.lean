import TribiosVfs.FuseAdapter

/-!
# A directory handle streams its snapshot

A pass over a handle reads at offset zero and then from where the filler stopped. Whatever the buffers hold, and whatever other
programs do between and during the calls, the pass delivers one snapshot: the one `tri_opendir` took, or, when the handle had been
read before, the one its first read took.
-/

namespace TribiosVfs

namespace Streaming

/-! ## What the buffers receive -/

/-- Entries as the filler is given them: each with the index after its own. -/
def numbered (entries : List DirEntry) (index : Nat) : List FilledEntry :=
  entries.mapIdx (fun i entry => ⟨entry, index + i + 1⟩)

/-- A filler that accepts at least one entry a call. -/
def AcceptsOne (filler : Filler) : Prop := ∀ x, filler [] x = true

@[simp] theorem numbered_nil (index : Nat) : numbered [] index = [] := rfl

theorem numbered_cons (entry : DirEntry) (entries : List DirEntry) (index : Nat) :
    numbered (entry :: entries) index = ⟨entry, index + 1⟩ :: numbered entries (index + 1) := by
  simp only [numbered, List.mapIdx_cons]
  congr 2
  funext i entry
  congr 1
  omega

/-- Nothing is lost by the numbering. -/
theorem entries_numbered (entries : List DirEntry) (index : Nat) : (numbered entries index).map (·.entry) = entries := by
  induction entries generalizing index with
  | nil => rfl
  | cons entry entries ih => simp [numbered_cons, ih]

/-- The numbers go on where an initial part ends. -/
theorem numbered_drop (entries : List DirEntry) (index n : Nat) :
    numbered (entries.drop n) (index + n) = (numbered entries index).drop n := by
  induction n generalizing entries index with
  | zero => rfl
  | succ n ih =>
    cases entries with
    | nil => simp
    | cons entry entries =>
      rw [List.drop_succ_cons, numbered_cons, List.drop_succ_cons, ← ih entries (index + 1)]
      congr 1
      omega

/-- The last of an initial part has the part's length as its offset. -/
theorem nextOffset_getLast? {entries : List DirEntry} {delivered : List FilledEntry} {last : FilledEntry}
    (h : delivered <+: numbered entries 0) (hlast : delivered.getLast? = some last) : last.nextOffset = delivered.length := by
  rw [List.getLast?_eq_getElem?] at hlast
  obtain ⟨hlt, hget⟩ := List.getElem?_eq_some_iff.mp hlast
  rw [← hget, h.getElem hlt]
  simp only [numbered, List.getElem_mapIdx]
  omega

/-- The filler is given the entries in order, and accepts an initial part of them. -/
theorem fillEntries_eq (filler : Filler) (entries : List DirEntry) (index : Nat) (buffer : List FilledEntry) :
    ∃ n, fillEntries filler entries index buffer = buffer ++ (numbered entries index).take n := by
  induction entries generalizing index buffer with
  | nil => exact ⟨0, by simp [fillEntries]⟩
  | cons entry entries ih =>
    unfold fillEntries
    split
    · obtain ⟨n, hn⟩ := ih (index + 1) (buffer ++ [⟨entry, index + 1⟩])
      refine ⟨n + 1, ?_⟩
      rw [hn, numbered_cons, List.take_succ_cons, List.append_assoc]
      rfl
    · exact ⟨0, by simp⟩

/-- A filler that accepts one entry leaves the buffer empty only where there is none. -/
theorem fillEntries_ne_nil {filler : Filler} (hfill : AcceptsOne filler) {entries : List DirEntry} {index : Nat}
    (h : fillEntries filler entries index [] = []) : entries = [] := by
  cases entries with
  | nil => rfl
  | cons entry entries =>
    unfold fillEntries at h
    rw [if_pos (hfill _)] at h
    obtain ⟨n, hn⟩ := fillEntries_eq filler entries (index + 1) ([] ++ [⟨entry, index + 1⟩])
    rw [hn] at h
    simp at h

/-! ## One call -/

section calls

variable {σ : Type} {S : Semantics Call Errno σ} {R : σ → σ → Prop}

/-- Every snapshot starts with `.` and `..`, and waits for its first read. -/
theorem buildDirectorySnapshot_starts {path : Bytes} {m m' : Manager} {w w' : σ} {snapshot : DirectorySnapshot}
    (h : Prog.Reach S R (buildDirectorySnapshot path m) w (.ret (.ok snapshot, m')) w') :
    snapshot.firstReadPending = true ∧ ∃ self parent entries, snapshot.entries =
      ⟨dotName, self, kDirectoryMode⟩ :: ⟨dotDotName, parent, kDirectoryMode⟩ :: entries := by
  have honly : (buildDirectorySnapshot path m).Only (fun _ => True) (fun r => ∀ snapshot, r.1 = .ok snapshot →
      snapshot.firstReadPending = true ∧ ∃ self parent entries, snapshot.entries =
        ⟨dotName, self, kDirectoryMode⟩ :: ⟨dotDotName, parent, kDirectoryMode⟩ :: entries) := by
    refine (Prog.only_trivial _).bind (fun self _ => (Prog.only_trivial _).bind (fun parent _ =>
      (Prog.only_trivial _).bind (fun r _ => ?_)))
    intro snapshot hsnapshot
    obtain ⟨r, m''⟩ := r
    cases r with
    | error x => cases hsnapshot
    | ok entries =>
      cases hsnapshot
      exact ⟨rfl, self, parent, entries, rfl⟩
  exact (honly.reach h) snapshot rfl

/-- What a read answers: its snapshot's entries from the offset on, as far as the filler takes them. Only taking a new snapshot
can fail. -/
theorem triReaddir_answers {path : Bytes} {filler : Filler} {offset : Int} {snapshot : DirectorySnapshot} {m m' : Manager}
    {w w' : σ} {answer : Except Errno (List FilledEntry)} {fh : Option DirectorySnapshot} (hoffset : 0 ≤ offset)
    (h : Prog.Reach S R (triReaddir path filler offset (some snapshot) m) w (.ret (answer, fh, m')) w') :
    ∃ r, Prog.Reach S R (snapshotForRead path offset snapshot m) w (.ret (r, m')) w' ∧
      ((∃ x, r = .error x ∧ answer = .error x ∧ fh = some snapshot) ∨
        ∃ current, r = .ok current ∧ fh = some { current with firstReadPending := false } ∧
          answer = .ok (fillEntries filler (current.entries.drop offset.toNat) offset.toNat [])) := by
  have hnot : ¬offset < 0 := by omega
  simp only [triReaddir, hnot, if_false] at h
  obtain ⟨⟨r, m''⟩, hr, heq⟩ := Prog.reach_map h
  cases r with
  | error x =>
    cases heq
    exact ⟨.error x, hr, Or.inl ⟨x, rfl, rfl, rfl⟩⟩
  | ok current =>
    cases heq
    exact ⟨.ok current, hr, Or.inr ⟨current, rfl, rfl, rfl⟩⟩

/-- A read that needs no new snapshot is answered from the one the handle holds. -/
theorem triReaddir_kept {path : Bytes} {filler : Filler} {offset : Int} {snapshot : DirectorySnapshot} {m m' : Manager}
    {w w' : σ} {answer : Except Errno (List FilledEntry)} {fh : Option DirectorySnapshot} (hoffset : 0 ≤ offset)
    (hkept : ¬(offset = 0 ∧ snapshot.firstReadPending = false))
    (h : Prog.Reach S R (triReaddir path filler offset (some snapshot) m) w (.ret (answer, fh, m')) w') :
    fh = some { snapshot with firstReadPending := false } ∧
      answer = .ok (fillEntries filler (snapshot.entries.drop offset.toNat) offset.toNat []) := by
  obtain ⟨r, hr, hcase⟩ := triReaddir_answers hoffset h
  unfold snapshotForRead at hr
  rw [if_neg hkept] at hr
  have hret := Prog.eq_of_reach_ret hr
  cases hret
  rcases hcase with ⟨x, hx, -, -⟩ | ⟨current, hcurrent, hfh, hanswer⟩
  · cases hx
  · cases hcurrent
    exact ⟨hfh, hanswer⟩

/-! ## Handles and passes -/

variable (S R)

/-- The life of a directory handle: the snapshot `tri_opendir` took, how many reads at an offset that is not negative it has had
since, and the snapshot it holds now. Every call may be made with other memory of the daemon and in another world. -/
inductive Session : DirectorySnapshot → Nat → DirectorySnapshot → Prop where
  | opened {path m w snapshot m' w'} :
      Prog.Reach S R (triOpendir path m) w (.ret (.ok snapshot, m')) w' → Session snapshot 0 snapshot
  | read {opened reads current path filler offset m w answer current' m' w'} : Session opened reads current →
      Prog.Reach S R (triReaddir path filler offset (some current) m) w (.ret (answer, some current', m')) w' →
      Session opened (if 0 ≤ offset then reads + 1 else reads) current'

/-- A pass goes on: each read continues from the offset of the last entry the filler accepted. `delivered` is what the pass has
received so far. -/
inductive Continues (first : List FilledEntry) (fh : Option DirectorySnapshot) :
    List FilledEntry → Option DirectorySnapshot → Prop where
  | first : Continues first fh first fh
  | next {delivered fh' last path filler m w more fh'' m' w'} : Continues first fh delivered fh' →
      delivered.getLast? = some last → AcceptsOne filler →
      Prog.Reach S R (triReaddir path filler last.nextOffset fh' m) w (.ret (.ok more, fh'', m')) w' →
      Continues first fh (delivered ++ more) fh''

variable {S R}

/-- Until its first read a handle holds what `tri_opendir` took; after it no snapshot waits for a first read. -/
theorem session_pending {opened current : DirectorySnapshot} {reads : Nat} (h : Session S R opened reads current) :
    (reads = 0 → current = opened ∧ current.firstReadPending = true) ∧ (0 < reads → current.firstReadPending = false) := by
  induction h with
  | opened hopen => exact ⟨fun _ => ⟨rfl, (buildDirectorySnapshot_starts hopen).1⟩, fun h => absurd h (lt_irrefl 0)⟩
  | @read opened reads current path filler offset m w answer current' m' w' _ hread ih =>
    by_cases hoffset : 0 ≤ offset
    · rw [if_pos hoffset]
      refine ⟨fun h => absurd h (Nat.succ_ne_zero reads), fun _ => ?_⟩
      obtain ⟨r, hr, hcase⟩ := triReaddir_answers hoffset hread
      rcases hcase with ⟨x, hx, -, hfh⟩ | ⟨_, -, hfh, -⟩
      · -- a failed rewind: the handle had been read before
        cases hfh
        unfold snapshotForRead at hr
        split at hr
        · rename_i hrewind
          exact hrewind.2
        · subst hx
          have hret := Prog.eq_of_reach_ret hr
          cases hret
      · cases hfh
        rfl
    · rw [if_neg hoffset]
      have hneg : offset < 0 := by omega
      simp only [triReaddir, hneg, if_true] at hread
      have hret := Prog.eq_of_reach_ret hread
      cases hret
      exact ih

/-- Every snapshot a handle holds starts with `.` and `..`. -/
theorem session_starts {opened current : DirectorySnapshot} {reads : Nat} (h : Session S R opened reads current) :
    ∃ self parent entries, opened.entries =
      ⟨dotName, self, kDirectoryMode⟩ :: ⟨dotDotName, parent, kDirectoryMode⟩ :: entries := by
  induction h with
  | opened hopen => exact (buildDirectorySnapshot_starts hopen).2
  | read _ _ ih => exact ih

/-- One more read of a pass: what it yields continues the initial part that was delivered. -/
theorem prefix_append_fill {entries : List DirEntry} {delivered : List FilledEntry} (filler : Filler)
    (h : delivered <+: numbered entries 0) :
    delivered ++ fillEntries filler (entries.drop delivered.length) delivered.length [] <+: numbered entries 0 := by
  obtain ⟨j, hj⟩ := fillEntries_eq filler (entries.drop delivered.length) delivered.length []
  have hdrop := numbered_drop entries 0 delivered.length
  rw [Nat.zero_add] at hdrop
  obtain ⟨rest, hrest⟩ := h
  rw [hj, List.nil_append, hdrop, ← hrest, List.drop_left]
  exact List.prefix_append_right_inj delivered |>.mpr ( List.take_prefix j rest)

/-- What a pass has received is an initial part of one snapshot, and the handle holds that snapshot. -/
theorem continues_initial {first delivered : List FilledEntry} {fh fh' : Option DirectorySnapshot} {entries : List DirEntry}
    (hfh : fh = some { entries := entries, firstReadPending := false }) (hne : first ≠ [])
    (hfirst : first <+: numbered entries 0) (h : Continues S R first fh delivered fh') :
    fh' = some { entries := entries, firstReadPending := false } ∧ delivered ≠ [] ∧ delivered <+: numbered entries 0 := by
  induction h with
  | first => exact ⟨hfh, hne, hfirst⟩
  | @next delivered fh₁ last path filler m w more fh₂ m' w' _ hlast _ hread ih =>
    obtain ⟨hheld, hreceived, hinitial⟩ := ih
    subst hheld
    have hoffset := nextOffset_getLast? hinitial hlast
    have hpos := List.length_pos_iff.mpr hreceived
    obtain ⟨hfh₂, hmore⟩ := triReaddir_kept (by omega) (by omega) hread
    refine ⟨hfh₂, by simp [hreceived], ?_⟩
    cases hmore
    rw [Int.toNat_natCast, hoffset]
    exact prefix_append_fill filler hinitial

end calls

end Streaming

open Streaming

/-- A pass over a directory handle: it begins with a read at offset zero of a handle that has had `reads` reads since
`tri_opendir`. That read fails only when the handle had been read before and taking the new snapshot fails. If it succeeds, the
pass receives one snapshot: the one `tri_opendir` took when there had been no read, and otherwise the one taken at this first
read. What it has received at any point is an initial part of that snapshot, which starts with `.` and `..`; every further read
succeeds, and when one yields no entry the whole snapshot has been received. -/
theorem directory_streaming {σ : Type} {S : Semantics Call Errno σ} {R : σ → σ → Prop} {opened current : DirectorySnapshot}
    {reads : Nat} (hsession : Session S R opened reads current) {path : Bytes} {filler : Filler} {m m₁ : Manager} {w w₁ : σ}
    {answer : Except Errno (List FilledEntry)} {fh₁ : Option DirectorySnapshot} (hfill : AcceptsOne filler)
    (hfirst : Prog.Reach S R (triReaddir path filler 0 (some current) m) w (.ret (answer, fh₁, m₁)) w₁) :
    (∀ x, answer = .error x →
      0 < reads ∧ Prog.Reach S R (buildDirectorySnapshot path m) w (.ret (.error x, m₁)) w₁) ∧
    ∀ first, answer = .ok first → ∃ snapshot : DirectorySnapshot,
      (reads = 0 → snapshot = opened) ∧
      (0 < reads → Prog.Reach S R (buildDirectorySnapshot path m) w (.ret (.ok snapshot, m₁)) w₁) ∧
      (∃ self parent rest, snapshot.entries =
        ⟨dotName, self, kDirectoryMode⟩ :: ⟨dotDotName, parent, kDirectoryMode⟩ :: rest) ∧
      ∀ delivered fh, Continues S R first fh₁ delivered fh →
        delivered.map (·.entry) <+: snapshot.entries ∧
        ∃ last, delivered.getLast? = some last ∧ ∀ path' filler' m' w' next fh' m'' w'', AcceptsOne filler' →
          Prog.Reach S R (triReaddir path' filler' last.nextOffset fh m') w' (.ret (next, fh', m'')) w'' →
          ∃ more, next = .ok more ∧ (more = [] → delivered.map (·.entry) = snapshot.entries) := by
  obtain ⟨hfresh, hread⟩ := session_pending hsession
  obtain ⟨r, hr, hcase⟩ := triReaddir_answers (le_refl 0) hfirst
  have hnew : 0 < reads → snapshotForRead path 0 current m = buildDirectorySnapshot path m := by
    intro hreads
    rw [snapshotForRead, if_pos ⟨rfl, hread hreads⟩]
  have hold : reads = 0 → r = .ok opened := by
    intro hreads
    obtain ⟨rfl, hpending⟩ := hfresh hreads
    rw [snapshotForRead, if_neg (by simp [hpending])] at hr
    exact (Prod.mk.inj (Prog.eq_of_reach_ret hr)).1
  refine ⟨?_, ?_⟩
  · intro x hx
    rcases hcase with ⟨y, hy, hanswer, -⟩ | ⟨_, -, -, hanswer⟩
    · rw [hanswer] at hx
      cases hx
      have hreads : 0 < reads := by
        rcases Nat.eq_zero_or_pos reads with hzero | hpos
        · rw [hold hzero] at hy
          cases hy
        · exact hpos
      rw [hnew hreads, hy] at hr
      exact ⟨hreads, hr⟩
    · rw [hanswer] at hx
      cases hx
  · intro first hok
    rcases hcase with ⟨y, -, hanswer, -⟩ | ⟨snapshot, hsnapshot, hfh, hanswer⟩
    · rw [hanswer] at hok
      cases hok
    rw [hanswer] at hok
    cases hok
    have hbuilt : 0 < reads → Prog.Reach S R (buildDirectorySnapshot path m) w (.ret (.ok snapshot, m₁)) w₁ := by
      intro hreads
      rw [hnew hreads, hsnapshot] at hr
      exact hr
    have hkept : reads = 0 → snapshot = opened := by
      intro hreads
      rw [hold hreads] at hsnapshot
      exact (Except.ok.inj hsnapshot).symm
    have hstarts : ∃ self parent rest, snapshot.entries =
        ⟨dotName, self, kDirectoryMode⟩ :: ⟨dotDotName, parent, kDirectoryMode⟩ :: rest := by
      rcases Nat.eq_zero_or_pos reads with hzero | hpos
      · rw [hkept hzero]
        exact session_starts hsession
      · exact (buildDirectorySnapshot_starts (hbuilt hpos)).2
    refine ⟨snapshot, hkept, hbuilt, hstarts, ?_⟩
    intro delivered fh hpass
    have hinitial : fillEntries filler (snapshot.entries.drop (0 : Int).toNat) (0 : Int).toNat [] <+:
        numbered snapshot.entries 0 := prefix_append_fill filler ( List.nil_prefix (l := numbered snapshot.entries 0))
    have hyields : fillEntries filler (snapshot.entries.drop (0 : Int).toNat) (0 : Int).toNat [] ≠ [] := by
      intro hnil
      obtain ⟨self, parent, rest, hentries⟩ := hstarts
      have hempty := fillEntries_ne_nil hfill hnil
      rw [hentries] at hempty
      cases hempty
    obtain ⟨hheld, hreceived, hdelivered⟩ := continues_initial hfh hyields hinitial hpass
    have hpart := hdelivered.map (·.entry)
    rw [entries_numbered] at hpart
    refine ⟨hpart, delivered.getLast hreceived, List.getLast?_eq_getLast_of_ne_nil hreceived, ?_⟩
    intro path' filler' m' w' next fh' m'' w'' hfill' hnext
    have hoffset := nextOffset_getLast? hdelivered (List.getLast?_eq_getLast_of_ne_nil hreceived)
    have hpos := List.length_pos_iff.mpr hreceived
    subst hheld
    obtain ⟨-, hnext⟩ := triReaddir_kept (by omega) (by omega) hnext
    refine ⟨_, hnext, fun hnil => ?_⟩
    rw [Int.toNat_natCast, hoffset] at hnil
    have hlength := List.drop_eq_nil_iff.mp (fillEntries_ne_nil hfill' hnil)
    refine hpart.eq_of_length_le ?_
    rw [List.length_map]
    exact hlength

namespace StreamingWitness

/-- A world whose Base directory `/b` holds empty files of these names. -/
def world (names : List Name) : World where
  host :=
    { tree := ⟨[([[98]], ⟨.dir, ⟨3, 493, 0, 0, 0⟩⟩), ([[117]], ⟨.dir, ⟨6, 493, 0, 0, 0⟩⟩)] ++
        names.zipIdx.map (fun n => ([[98], n.1], ⟨.file [], ⟨7 + n.2, 420, 5, 5, 5⟩⟩))⟩
      nextIno := 9
      now := 9
      umask := 18 }
  store := { committed := {} }

/-- A daemon that serves the Workspace `w` over that Base directory. -/
def manager : Manager where
  paths := ⟨[[112]], [[109]]⟩
  engines := [([119], { workspace := [119], inodeSalt := 7, baseDir := [[98]], upperDir := [[117]] })]

/-- The Workspace's directory in the view. -/
def path : Bytes := [47, 119]

/-- What it lists while the Base directory holds the files `a` and `c`. -/
def shownEntries : List DirEntry :=
  [⟨dotName, 15923203627879530961, kDirectoryMode⟩, ⟨dotDotName, kProjectViewRootInode, kDirectoryMode⟩,
    ⟨[97], 2692132535155015209, 32768⟩, ⟨[99], saltedWorkspaceInode 7 8, 32768⟩]

/-- The snapshot of a handle that was opened while there was only `a`. -/
def before : DirectorySnapshot := ⟨shownEntries.take 3, true⟩

/-- A buffer that holds one entry, and one that holds them all. -/
def single : Filler := fun buffer _ => buffer.isEmpty

def large : Filler := fun _ _ => true

theorem runsTo {α : Type} {p : Prog Call Errno α} {w : World} {a : α} (h : (p.run exec w).1 = a) :
    Prog.Reach (hosts anyFaults) Eq p w (.ret a) (p.run exec w).2 :=
  h ▸ Prog.reach_run exec (fun c w => hosts_exec _ c w) p w .refl

theorem opened : Session (hosts anyFaults) Eq before 0 before :=
  Session.opened (runsTo (p := triOpendir path manager) (w := world [[97]])
    (a := (.ok before, ((triOpendir path manager).run exec (world [[97]])).1.2)) (Prod.ext (by decide +kernel) rfl))

theorem readOnce : Session (hosts anyFaults) Eq before 1 ⟨shownEntries.take 3, false⟩ :=
  @Session.read _ _ _ _ _ _ path large 0 manager (world [[97]]) _ _ manager (world [[97]]) opened .refl

/-- The pass goes on with a large buffer after the first entry. -/
theorem passed : Continues (hosts anyFaults) Eq ((numbered shownEntries 0).take 1) (some ⟨shownEntries, false⟩) (numbered shownEntries 0)
    (some ⟨shownEntries, false⟩) :=
  @Continues.next _ _ _ _ _ _ _ ⟨⟨dotName, 15923203627879530961, kDirectoryMode⟩, 1⟩ path large manager (world [[97], [99]]) _ _
    manager (world [[97], [99]]) .first rfl (fun _ => rfl) .refl

end StreamingWitness

open StreamingWitness in
/-- A directory is opened and read, gets another file, and is rewound and read to the end through buffers of two sizes: the pass
receives the snapshot of the rewind, the new file in it, whole. -/
theorem directory_streaming_rewound : ∃ snapshot : DirectorySnapshot, (∃ m w,
    Prog.Reach (hosts anyFaults) Eq (buildDirectorySnapshot path manager) (world [[97], [99]]) (.ret (.ok snapshot, m)) w) ∧
      (numbered shownEntries 0).map (·.entry) = snapshot.entries := by
  have h := @directory_streaming _ _ _ _ _ _ readOnce path single manager _ (world [[97], [99]]) _
    (.ok ((numbered shownEntries 0).take 1)) (some ⟨shownEntries, false⟩) (fun _ => rfl)
    (runsTo (a := (.ok ((numbered shownEntries 0).take 1), some ⟨shownEntries, false⟩,
      ((triReaddir path single 0 (some ⟨shownEntries.take 3, false⟩) manager).run exec (world [[97], [99]])).1.2.2))
      (Prod.ext (by decide +kernel) (Prod.ext (by decide +kernel) rfl)))
  obtain ⟨snapshot, -, htaken, -, hpass⟩ := h.2 _ rfl
  obtain ⟨-, last, hlast, hends⟩ := hpass _ _ passed
  refine ⟨snapshot, ⟨_, _, htaken Nat.zero_lt_one⟩, ?_⟩
  have hlast' : last = ⟨⟨[99], saltedWorkspaceInode 7 8, 32768⟩, 4⟩ := (Option.some.inj hlast).symm
  subst hlast'
  -- one more read, at the end, yields nothing
  obtain ⟨more, hmore, hwhole⟩ := hends path large manager (world [[97], [99]]) (.ok []) (some ⟨shownEntries, false⟩) manager _
    (fun _ => rfl) .refl
  exact hwhole (Except.ok.inj hmore).symm

end TribiosVfs

import TribiosVfs.Lemmas.Homes
import TribiosVfs.Lemmas.LifecycleCalls
import TribiosVfs.Lemmas.Runs
import TribiosVfs.Requests
import TribiosVfs.Theorems.ControlFraming

/-!
# Incomplete requests

The read loop ends at a newline and at the end of the stream alike, so a request that was cut off is dispatched as if it were
whole. What is left of its last field then stands for the field.
-/

namespace TribiosVfs

/-! ## What a cut leaves -/

/-- What the first bytes of an escaped field decode to: a cut in an escape leaves its beginning as it stands. -/
def cutField : Bytes → Nat → Bytes
  | [], _ => []
  | _ :: _, 0 => []
  | c :: field, k + 1 =>
    if mustEscape c then
      match k with
      | 0 => [percent]
      | 1 => [percent, hexDigit (c.toNat / 16)]
      | k + 2 => c :: cutField field k
    else c :: cutField field k

/-- The fields that the first `k` bytes of a message hold. -/
def cutFields : List Bytes → Nat → List Bytes
  | [], _ => [[]]
  | field :: fields, k =>
    let written := (field.flatMap escapeByte).length
    if k ≤ written then [cutField field k] else field :: cutFields fields (k - written - 1)

/-! ## What may and what does come of it -/

/-- Nothing comes of a request that never came whole: the daemon does not stop, no lifecycle request changes anything, and the
only filesystem operation is the one the client encoded. -/
structure NothingPerformed (m : Manager) (unmounts : Bool) (w : World) (fields : List Bytes) (action : ControlAction) : Prop where
  serving : action ≠ .shutdown
  untouched : ∀ request : LifecycleRequest, action = .lifecycle request →
    (request.serve m).run exec w = ((.up m, none), w)
  encoded : ∀ workspace operation, action = .filesystem workspace operation →
    dispatchControlRequest m unmounts fields = .filesystem workspace operation

/-- A fault is set for the journal write of lifecycle requests. -/
def World.JournalFault (w : World) : Prop := ∃ e, w.env.ioFault = some (.lifecycleJournalWrite, e)

/-- The state refuses a lifecycle request before it has changed anything. -/
def LifecycleRequest.Refused (m : Manager) (w : World) : LifecycleRequest → Prop
  | .create name _ => isValidWorkspaceName name = false ∨ m.serves name = true ∨
      (∃ record ∈ w.store.visible.loadWorkspaceRecord name, record.state ≠ .reclaimed) ∨ w.JournalFault
  | .remove name => (∀ record ∈ w.store.visible.loadWorkspaceRecord name, record.state ≠ .active) ∨ w.JournalFault

/-- The fields a cut left are harmless in place of the request's. -/
structure Harmless (m : Manager) (unmounts : Bool) (w : World) (fields left : List Bytes) : Prop where
  shutdown : requestArgument left 0 = shutdownVerb → unmounts = false
  create : requestArgument left 0 = wsCreateVerb →
    (LifecycleRequest.create (requestArgument left 1) (requestArgument left 2)).Refused m w
  remove : requestArgument left 0 = wsRemoveVerb → (LifecycleRequest.remove (requestArgument left 1)).Refused m w
  upper : requestArgument left 0 = statsUpperVerb → m.serves (requestArgument left 1) = true →
    requestArgument fields 0 = statsUpperVerb ∧ requestArgument fields 1 = requestArgument left 1
  filesystem : ∀ verb, filesystemVerbOf (requestArgument left 0) = some verb → m.serves (requestArgument left 1) = true →
    requestArgument fields 0 = requestArgument left 0 ∧ requestArgument fields 1 = requestArgument left 1 ∧
      filesystemOperation verb fields = filesystemOperation verb left

namespace CompleteAux

open FramingAux

/-! ## Decoding a cut message -/

/-- A field cut off in the middle; the induction is on the field, and the cases are where in an escape the cut lies. -/
theorem decodeLoop_cutField (field : Bytes) (before : List Bytes) (back : Bytes) (k : Nat) :
    decodeLoop before back 0 ((field.flatMap escapeByte).take k) = before ++ [back ++ cutField field k] := by
  induction field generalizing back k with
  | nil => simp [cutField, decodeLoop]
  | cons c field ih =>
    cases k with
    | zero => simp [cutField, decodeLoop]
    | succ k =>
      cases hc : mustEscape c with
      | false =>
        have hbyte : escapeByte c = [c] := by simp [escapeByte, hc]
        rw [List.flatMap_cons, hbyte, List.singleton_append, List.take_succ_cons, decodeLoop_plain hc, ih]
        simp [cutField, hc]
      | true =>
        have hbyte : escapeByte c = [percent, hexDigit (c.toNat / 16), hexDigit (c.toNat % 16)] := by simp [escapeByte, hc]
        rw [List.flatMap_cons, hbyte]
        rcases k with _ | _ | k
        · simp [cutField, hc, decodeLoop, escapeValue, percent, newline, carriageReturn, tab]
        · have hlow : c.toNat < 256 := UInt8.toNat_lt_size c
          have hplain := hexDigit_plain (n := c.toNat / 16) (by omega)
          simp only [List.cons_append, List.take_succ_cons, List.take_zero, Nat.reduceAdd]
          rw [decodeLoop, if_neg (by decide), if_neg (by decide)]
          simp only [escapeValue]
          rw [decodeLoop_plain hplain]
          simp [cutField, hc, decodeLoop]
        · simp only [List.cons_append, List.take_succ_cons, List.nil_append]
          rw [decodeLoop_escape, ih]
          simp [cutField, hc]

/-- Where the cut lies behind the first field, that field is whole. -/
theorem decodeLoop_cutFields (fields before : List Bytes) (field : Bytes) (k : Nat)
    (hk : k ≤ (encodeFields (field :: fields)).length) :
    decodeLoop before [] 0 ((encodeFields (field :: fields)).take k) = before ++ cutFields (field :: fields) k := by
  induction fields generalizing before field k with
  | nil =>
    rw [encodeFields_cons] at hk ⊢
    simp only [List.flatMap_nil, List.append_nil] at hk ⊢
    rw [decodeLoop_cutField, cutFields, if_pos hk, List.nil_append]
  | cons next fields ih =>
    have hsplit : encodeFields (field :: next :: fields) =
        field.flatMap escapeByte ++ tab :: encodeFields (next :: fields) := by
      rw [encodeFields_cons, encodeFields_cons]
      simp
    rw [hsplit] at hk ⊢
    rw [cutFields]
    by_cases hin : k ≤ (field.flatMap escapeByte).length
    · rw [if_pos hin, List.take_append_of_le_length hin, decodeLoop_cutField, List.nil_append]
    · rw [if_neg hin]
      obtain ⟨j, rfl⟩ : ∃ j, k = (field.flatMap escapeByte).length + (j + 1) :=
        ⟨k - (field.flatMap escapeByte).length - 1, by omega⟩
      have hj : j ≤ (encodeFields (next :: fields)).length := by
        simp only [List.length_append, List.length_cons] at hk
        omega
      have hrest : (field.flatMap escapeByte).length + (j + 1) - (field.flatMap escapeByte).length - 1 = j := by omega
      rw [List.take_length_add_append, List.take_succ_cons, decodeLoop_field, decodeLoop, if_neg (by decide), if_pos rfl, ih _ _ _ hj,
        hrest]
      simp

/-- What the server decodes of a message that was cut off before its newline. -/
theorem receive_cut {fields : List Bytes} {k : Nat} (hk : k < (encodeMessage fields).length) {chunks : List Chunk}
    (hcut : delivered chunks = (encodeMessage fields).take k) : receiveRequest chunks = cutFields fields k := by
  have hk' : k ≤ (encodeFields fields).length := by
    simp only [encodeMessage, List.length_append, List.length_singleton] at hk
    omega
  have htake : delivered chunks = (encodeFields fields).take k := by
    rw [hcut, encodeMessage, List.take_append_of_le_length hk']
  have hfree : newline ∉ delivered chunks := by
    rw [htake]
    exact fun hmem => newline_not_mem_encodeFields fields (List.mem_of_mem_take hmem)
  rw [receiveRequest, readLoop_cut hfree, htake]
  cases fields with
  | nil => simp [encodeFields, decodeMessage, decodeLoop, cutFields]
  | cons field fields => exact decodeLoop_cutFields fields [] field k hk'

/-! ## Lifecycle requests -/

open Runs

theorem run_nextId {ε α : Type} (p : Fallible ε α) (w : World) :
    w.store.visible.nextId ≤ (p.run exec w).2.store.visible.nextId := by
  unfold Fallible at p
  induction p generalizing w with
  | ret r => exact le_rfl
  | call c k ih => exact (exec_nextId c w).trans (ih _ _)

/-- What the journal boundary of lifecycle requests comes to. -/
theorem run_journalFault (w : World) :
    ((Io.call (.injectedIoError .lifecycleJournalWrite)).orElseDo
      (fun x => Fallible.fail (LifecycleError.journalFailed x))).run exec w =
      ((match w.env.ioFault with
        | some (b, e) => if b = .lifecycleJournalWrite then .error (.journalFailed e) else .ok ()
        | none => .ok ()), w) := by
  refine (Prog.run_bind exec _ _ w).trans ?_
  rw [run_call w _ rfl]
  simp only [exec]
  cases w.env.ioFault with
  | none => rfl
  | some fault =>
    obtain ⟨b, e⟩ := fault
    dsimp only
    split <;> rfl

/-- A computation that hands out a journal number. -/
def Journals {ε α : Type} (p : Fallible ε α) (w : World) : Prop :=
  w.store.visible.nextId < (p.run exec w).2.store.visible.nextId

theorem journals_bind {ε α β : Type} {p : Fallible ε α} {f : α → Fallible ε β} {w : World} (h : Journals p w) :
    Journals (p >>= f) w := by
  unfold Journals at h ⊢
  rw [run_bind]
  generalize p.run exec w = r at h ⊢
  obtain ⟨a | x, w'⟩ := r
  · exact h
  · exact h.trans_le (run_nextId _ _)

theorem journals_after {ε α β : Type} {p : Fallible ε α} {f : α → Fallible ε β} {w : World} {a : α}
    (hp : p.run exec w = (.ok a, w)) (h : Journals (f a) w) : Journals (p >>= f) w := by
  unfold Journals at h ⊢
  rw [run_bind, hp]
  exact h

theorem journals_begin (operation : RecoveryOperation) (w : World) : Journals (stored (.beginRecoveryOperation operation)) w := by
  show w.store.visible.nextId < (w.store.update (·.beginRecoveryOperation operation)).visible.nextId
  rw [Store.visible_update]
  exact Nat.lt_succ_self _

theorem run_clock (w : World) : (stored .clock).run exec w = (.ok w.host.now, w) := rfl

theorem run_loadWorkspaceRecord {ε : Type} (name : Name) (w : World) :
    (loadWorkspaceRecord name : Fallible ε _).run exec w = (.ok (w.store.visible.loadWorkspaceRecord name), w) := rfl

/-- Without a fault the journal boundary is passed. -/
theorem run_boundary {w : World} (h : ¬w.JournalFault) :
    ((Io.call (.injectedIoError .lifecycleJournalWrite)).orElseDo
      (fun x => Fallible.fail (LifecycleError.journalFailed x))).run exec w = (.ok (), w) := by
  rw [run_journalFault]
  cases hfault : w.env.ioFault with
  | none => rfl
  | some fault =>
    obtain ⟨b, e⟩ := fault
    have hb : b ≠ .lifecycleJournalWrite := by
      rintro rfl
      exact h ⟨e, hfault⟩
    dsimp only
    rw [if_neg hb]

/-- With one nothing behind it runs. -/
theorem run_boundary_fault {β : Type} {f : Unit → Fallible LifecycleError β} {w : World} (h : w.JournalFault) :
    ∃ x, (((Io.call (.injectedIoError .lifecycleJournalWrite)).orElseDo
      (fun x => Fallible.fail (LifecycleError.journalFailed x))) >>= f).run exec w = (.error x, w) := by
  obtain ⟨e, he⟩ := h
  refine ⟨.journalFailed e, ?_⟩
  rw [run_bind, run_journalFault, he]
  rfl

/-- A refused creation changes nothing. -/
theorem create_refused {m : Manager} {w : World} {name branch : Bytes}
    (h : (LifecycleRequest.create name branch).Refused m w) :
    ∃ x, (createWorkspace m name branch).run exec w = (.error x, w) := by
  rw [createWorkspace, run_bind, run_refuse]
  by_cases hname : isValidWorkspaceName name = false
  · exact ⟨.invalidName, by rw [if_pos hname]⟩
  rw [if_neg hname]
  dsimp only
  rw [run_bind, run_refuse]
  by_cases hserves : m.serves name = true
  · exact ⟨.alreadyExists, by rw [if_pos hserves]⟩
  rw [if_neg hserves]
  dsimp only
  rw [run_bind, run_loadWorkspaceRecord]
  dsimp only
  rw [run_bind, run_refuse]
  by_cases hrecord : ∃ record ∈ w.store.visible.loadWorkspaceRecord name, record.state ≠ .reclaimed
  · exact ⟨.stillInUse, by rw [if_pos hrecord]⟩
  rw [if_neg hrecord]
  dsimp only
  have hfault : w.JournalFault := by
    rcases h with h | h | h | h
    · exact absurd h hname
    · exact absurd h hserves
    · exact absurd h hrecord
    · exact h
  rw [buildWorkspace, run_bind, run_clock]
  dsimp only
  obtain ⟨x, hx⟩ := run_boundary_fault hfault
    (f := fun _ => stored (.beginRecoveryOperation
      { workspace := name, kind := .workspaceCreate, path := [name], target := RelPath.ofText (requestedOr name branch) }))
  exact ⟨x, by rw [run_bind, journalCreation, hx]⟩

/-- A creation that is not refused journals itself. -/
theorem create_journals {m : Manager} {w : World} {name branch : Bytes}
    (h : ¬(LifecycleRequest.create name branch).Refused m w) : Journals (createWorkspace m name branch) w := by
  simp only [LifecycleRequest.Refused, not_or] at h
  obtain ⟨hname, hserves, hrecord, hfault⟩ := h
  refine journals_after (a := ()) (by rw [run_refuse, if_neg hname]) ?_
  refine journals_after (a := ()) (by rw [run_refuse, if_neg hserves]) ?_
  refine journals_after (run_loadWorkspaceRecord name w) ?_
  refine journals_after (a := ()) (by rw [run_refuse, if_neg hrecord]) ?_
  refine journals_after (run_clock w) ?_
  refine journals_bind ?_
  exact journals_after (run_boundary hfault) (journals_begin _ w)

/-- A refused removal changes nothing. -/
theorem remove_refused {m : Manager} {w : World} {name : Bytes} (h : (LifecycleRequest.remove name).Refused m w) :
    ∃ x, (removeWorkspace m name).run exec w = (.error x, w) := by
  rw [removeWorkspace, run_bind, run_clock]
  dsimp only
  rw [run_bind, run_loadWorkspaceRecord]
  dsimp only
  cases hrecord : w.store.visible.loadWorkspaceRecord name with
  | none => exact ⟨.noSuchWorkspace, rfl⟩
  | some record =>
    dsimp only
    rw [run_bind, run_refuse]
    by_cases hstate : record.state ≠ .active
    · exact ⟨.noSuchWorkspace, by rw [if_pos hstate]⟩
    rw [if_neg hstate]
    dsimp only
    have hfault : w.JournalFault := by
      rcases h with h | h
      · exact absurd (h record hrecord) hstate
      · exact h
    exact run_boundary_fault hfault

/-- A removal that is not refused journals itself. -/
theorem remove_journals {m : Manager} {w : World} {name : Bytes} (h : ¬(LifecycleRequest.remove name).Refused m w) :
    Journals (removeWorkspace m name) w := by
  simp only [LifecycleRequest.Refused, not_or, not_forall] at h
  obtain ⟨⟨record, hrecord, hstate⟩, hfault⟩ := h
  refine journals_after (run_clock w) ?_
  refine journals_after (run_loadWorkspaceRecord name w) ?_
  rw [show w.store.visible.loadWorkspaceRecord name = some record from hrecord]
  refine journals_after (a := ()) (by rw [run_refuse, if_neg hstate]) ?_
  refine journals_after (run_boundary hfault) ?_
  exact journals_bind (journals_begin _ w)

/-- A lifecycle request changes nothing exactly where it is refused. -/
theorem serve_untouched (m : Manager) (w : World) (request : LifecycleRequest) :
    (request.serve m).run exec w = ((.up m, none), w) ↔ request.Refused m w := by
  cases request with
  | create name branch =>
    have hrun : ((LifecycleRequest.create name branch).serve m).run exec w = _ :=
      Prog.run_bind exec (createWorkspace m name branch) _ w
    constructor
    · intro h
      by_contra hrefused
      have hworld : ((createWorkspace m name branch).run exec w).2 = w := congrArg Prod.snd (hrun.symm.trans h)
      exact absurd (congrArg (fun w' => w'.store.visible.nextId) hworld) (ne_of_gt (create_journals hrefused))
    · intro h
      obtain ⟨x, hx⟩ := create_refused h
      rw [hrun, hx]
      rfl
  | remove name =>
    have hrun : ((LifecycleRequest.remove name).serve m).run exec w = _ := Prog.run_bind exec (removeWorkspace m name) _ w
    constructor
    · intro h
      by_contra hrefused
      have hworld : ((removeWorkspace m name).run exec w).2 = w := congrArg Prod.snd (hrun.symm.trans h)
      exact absurd (congrArg (fun w' => w'.store.visible.nextId) hworld) (ne_of_gt (remove_journals hrefused))
    · intro h
      obtain ⟨x, hx⟩ := remove_refused h
      rw [hrun, hx]
      rfl

/-! ## Dispatching what is left -/

/-- The dispatch reads the verb first; a request without fields has the empty one, which is no verb. -/
theorem dispatch_eq (m : Manager) (unmounts : Bool) (left : List Bytes) :
    dispatchControlRequest m unmounts left =
      if requestArgument left 0 = pingVerb then .reply
      else if requestArgument left 0 = infoVerb then .reply
      else if requestArgument left 0 = shutdownVerb then (if unmounts then .shutdown else .reply)
      else if wsMarker.isPrefixOf (requestArgument left 0) then dispatchWorkspaceRequest (requestArgument left 0) left
      else if fsMarker.isPrefixOf (requestArgument left 0) ∨ requestArgument left 0 = statsUpperVerb then
        dispatchFilesystemRequest m (requestArgument left 0) left
      else .reply := by
  cases left with
  | nil => rfl
  | cons verb rest => rfl

variable {m : Manager} {unmounts : Bool} {left : List Bytes}

theorem dispatch_shutdown (h : requestArgument left 0 = shutdownVerb) :
    dispatchControlRequest m unmounts left = if unmounts then .shutdown else .reply := by
  rw [dispatch_eq, h]
  rfl

theorem dispatch_create (h : requestArgument left 0 = wsCreateVerb) :
    dispatchControlRequest m unmounts left = .lifecycle (.create (requestArgument left 1) (requestArgument left 2)) := by
  rw [dispatch_eq, h]
  rfl

theorem dispatch_remove (h : requestArgument left 0 = wsRemoveVerb) :
    dispatchControlRequest m unmounts left = .lifecycle (.remove (requestArgument left 1)) := by
  rw [dispatch_eq, h]
  rfl

theorem dispatch_upper (h : requestArgument left 0 = statsUpperVerb) (hserves : m.serves (requestArgument left 1) = true) :
    dispatchControlRequest m unmounts left = .filesystem (requestArgument left 1) .upperBytes := by
  rw [dispatch_eq, h]
  show dispatchFilesystemRequest m statsUpperVerb left = _
  rw [dispatchFilesystemRequest, if_neg (by simp [hserves]), if_pos rfl]

theorem filesystemVerbOf_text (verb : FilesystemVerb) : filesystemVerbOf verb.text = some verb := by
  cases verb <;> rfl

theorem text_of_filesystemVerbOf {text : Bytes} {verb : FilesystemVerb} (h : filesystemVerbOf text = some verb) :
    text = verb.text := by
  have := List.find?_some h
  exact (by simpa using this : verb.text = text).symm

theorem dispatch_filesystem {verb : FilesystemVerb} (h : filesystemVerbOf (requestArgument left 0) = some verb)
    (hserves : m.serves (requestArgument left 1) = true) :
    dispatchControlRequest m unmounts left = .filesystem (requestArgument left 1) (filesystemOperation verb left) := by
  rw [dispatch_eq, text_of_filesystemVerbOf h]
  have hdispatch : dispatchFilesystemRequest m verb.text left =
      .filesystem (requestArgument left 1) (filesystemOperation verb left) := by
    rw [dispatchFilesystemRequest, if_neg (by simp [hserves]), if_neg (by cases verb <;> decide), filesystemVerbOf_text]
  rw [← hdispatch]
  cases verb <;> rfl

/-- Whatever a request comes to, its verb says so. -/
theorem dispatch_cases (m : Manager) (unmounts : Bool) (left : List Bytes) :
    (requestArgument left 0 = shutdownVerb ∧ unmounts = true) ∨ requestArgument left 0 = wsCreateVerb ∨
    requestArgument left 0 = wsRemoveVerb ∨
    (requestArgument left 0 = statsUpperVerb ∧ m.serves (requestArgument left 1) = true) ∨
    (∃ verb, filesystemVerbOf (requestArgument left 0) = some verb ∧ m.serves (requestArgument left 1) = true) ∨
    dispatchControlRequest m unmounts left ∈ [ControlAction.reply, .listRecords, .waitForReclamation] := by
  by_cases hserves : m.serves (requestArgument left 1) = true
  · by_contra hnone
    simp only [not_or, not_exists, not_and] at hnone
    obtain ⟨hshutdown, hcreate, hremove, hupper, hfilesystem, hrest⟩ := hnone
    refine hrest ?_
    rw [dispatch_eq]
    split_ifs with h₁ h₂ h₃ h₄ h₅ h₆
    · simp
    · simp
    · exact absurd h₄ (hshutdown h₃)
    · simp
    · rw [dispatchWorkspaceRequest, if_neg hcreate, if_neg hremove]
      split_ifs <;> simp
    · rw [dispatchFilesystemRequest, if_neg (by simp [hserves]), if_neg (fun h => hupper h hserves)]
      cases hverb : filesystemVerbOf (requestArgument left 0) with
      | none => simp
      | some verb => exact absurd hserves (hfilesystem verb hverb)
    · simp
  · by_contra hnone
    simp only [not_or, not_exists, not_and] at hnone
    obtain ⟨hshutdown, hcreate, hremove, -, -, hrest⟩ := hnone
    refine hrest ?_
    rw [dispatch_eq]
    split_ifs with h₁ h₂ h₃ h₄ h₅ h₆
    · simp
    · simp
    · exact absurd h₄ (hshutdown h₃)
    · simp
    · rw [dispatchWorkspaceRequest, if_neg hcreate, if_neg hremove]
      split_ifs <;> simp
    · rw [dispatchFilesystemRequest, if_pos (by simpa using hserves)]
      simp
    · simp

/-- The verb an operation comes from. -/
def verbOf : FilesystemOperation → Option FilesystemVerb
  | .upperBytes => none
  | .stat _ => some .stat
  | .ls _ => some .ls
  | .read _ => some .read
  | .readlink _ => some .readlink
  | .write .. => some .write
  | .create _ => some .create
  | .mkdir _ => some .mkdir
  | .rm _ => some .rm
  | .rmdir _ => some .rmdir
  | .mv .. => some .mv
  | .symlink .. => some .symlink
  | .chmod .. => some .chmod
  | .truncate .. => some .truncate
  | .utimens .. => some .utimens
  | .fsync _ => some .fsync
  | .fsyncdir _ => some .fsyncdir

theorem verbOf_operation (verb : FilesystemVerb) (request : List Bytes) : verbOf (filesystemOperation verb request) = some verb := by
  cases verb <;> rfl

/-- The requests that come to an operation on files. -/
theorem dispatch_eq_filesystem {workspace : Name} {operation : FilesystemOperation}
    (h : dispatchControlRequest m unmounts left = .filesystem workspace operation) :
    workspace = requestArgument left 1 ∧
      ((requestArgument left 0 = statsUpperVerb ∧ operation = .upperBytes) ∨
        ∃ verb, filesystemVerbOf (requestArgument left 0) = some verb ∧ operation = filesystemOperation verb left) := by
  rcases dispatch_cases m unmounts left with ⟨hverb, hu⟩ | hverb | hverb | ⟨hverb, hserves⟩ | ⟨verb, hverb, hserves⟩ | hnone
  · rw [dispatch_shutdown hverb, if_pos hu] at h
    cases h
  · rw [dispatch_create hverb] at h
    cases h
  · rw [dispatch_remove hverb] at h
    cases h
  · rw [dispatch_upper hverb hserves] at h
    cases h
    exact ⟨rfl, Or.inl ⟨hverb, rfl⟩⟩
  · rw [dispatch_filesystem hverb hserves] at h
    cases h
    exact ⟨rfl, Or.inr ⟨verb, hverb, rfl⟩⟩
  · rw [h] at hnone
    simp at hnone

/-- An action that is no shutdown, no lifecycle request and no operation on files is nothing. -/
theorem nothing_of_idle {w : World} {fields : List Bytes} {action : ControlAction}
    (h : action ∈ [ControlAction.reply, .listRecords, .waitForReclamation]) : NothingPerformed m unmounts w fields action := by
  simp only [List.mem_cons, List.not_mem_nil, or_false] at h
  rcases h with rfl | rfl | rfl
  all_goals exact ⟨nofun, nofun, nofun⟩

end CompleteAux

open CompleteAux in
/-- Of a request that was cut off before its newline nothing comes exactly where what is left of it is harmless: it is no shutdown
and no lifecycle request that the state lets through, and where it is an operation on the files of an active Workspace, it is the
one the whole request encodes. -/
theorem only_complete_requests (m : Manager) (unmounts : Bool) (w : World) (fields : List Bytes) (k : Nat) (chunks : List Chunk)
    (hk : k < (encodeMessage fields).length) (hcut : delivered chunks = (encodeMessage fields).take k) :
    NothingPerformed m unmounts w fields (serveConnection m unmounts chunks) ↔ Harmless m unmounts w fields (cutFields fields k) := by
  rw [serveConnection, receive_cut hk hcut]
  generalize cutFields fields k = left
  constructor
  · intro h
    refine ⟨fun hverb => ?_, fun hverb => ?_, fun hverb => ?_, fun hverb hserves => ?_, fun verb hverb hserves => ?_⟩
    · by_contra hunmounts
      refine h.serving ?_
      rw [dispatch_shutdown hverb, if_pos (by simpa using hunmounts)]
    · exact (serve_untouched m w _).1 (h.untouched _ (dispatch_create hverb))
    · exact (serve_untouched m w _).1 (h.untouched _ (dispatch_remove hverb))
    · obtain ⟨hworkspace, ⟨hupper, -⟩ | ⟨verb, -, hoperation⟩⟩ := dispatch_eq_filesystem (h.encoded _ _ (dispatch_upper hverb hserves))
      · exact ⟨hupper, hworkspace.symm⟩
      · exact absurd ((congrArg verbOf hoperation).trans (verbOf_operation _ _)) nofun
    · obtain ⟨hworkspace, ⟨-, hoperation⟩ | ⟨verb', hverb', hoperation⟩⟩ :=
        dispatch_eq_filesystem (h.encoded _ _ (dispatch_filesystem hverb hserves))
      · exact absurd ((verbOf_operation _ _).symm.trans (congrArg verbOf hoperation)) nofun
      · have hsame : some verb = some verb' := by rw [← verbOf_operation verb left, hoperation, verbOf_operation]
        cases hsame
        exact ⟨(text_of_filesystemVerbOf hverb').trans (text_of_filesystemVerbOf hverb).symm, hworkspace.symm, hoperation.symm⟩
  · intro h
    rcases dispatch_cases m unmounts left with ⟨hverb, hu⟩ | hverb | hverb | ⟨hverb, hserves⟩ | ⟨verb, hverb, hserves⟩ | hnone
    · exact absurd hu (by simp [h.shutdown hverb])
    · rw [dispatch_create hverb]
      refine ⟨nofun, fun request hrequest => ?_, nofun⟩
      cases hrequest
      exact (serve_untouched m w _).2 (h.create hverb)
    · rw [dispatch_remove hverb]
      refine ⟨nofun, fun request hrequest => ?_, nofun⟩
      cases hrequest
      exact (serve_untouched m w _).2 (h.remove hverb)
    · obtain ⟨hupper, hworkspace⟩ := h.upper hverb hserves
      rw [dispatch_upper hverb hserves]
      refine ⟨nofun, nofun, fun workspace operation haction => ?_⟩
      cases haction
      rw [dispatch_upper hupper (hworkspace ▸ hserves), hworkspace]
    · obtain ⟨hsame, hworkspace, hoperation⟩ := h.filesystem verb hverb hserves
      rw [dispatch_filesystem hverb hserves]
      refine ⟨nofun, nofun, fun workspace operation haction => ?_⟩
      cases haction
      rw [dispatch_filesystem (hsame ▸ hverb) (hworkspace ▸ hserves), hworkspace, hoperation]
    · exact nothing_of_idle hnone

namespace CompleteWitness

/-- A Project at `/p` with one active Workspace, `ab`. -/
def m : Manager :=
  { paths := ⟨[[112]], [[109]]⟩
    engines := [([97, 98], { workspace := [97, 98], inodeSalt := 0, baseDir := [], upperDir := [] })] }

/-- The state of that Project. -/
def w : World :=
  { host := { tree := PathMap.empty, nextIno := 3, now := 0, umask := 0 }
    store := { committed := { workspaces := [{ name := [97, 98], branch := [97, 98], state := .active }] } } }

/-- The request to remove the Workspace `abc`. -/
def fields : List Bytes := [wsRemoveVerb, [97, 98, 99]]

/-- What came of it: `ws.remove`, a tab, and `ab`. -/
def reads : List Chunk := [⟨[119, 115, 46, 114, 101, 109, 111, 118, 101, 9, 97, 98], by decide, by decide⟩]

/-- The Workspace `ab` is removed. -/
theorem removes_another : delivered reads = (encodeMessage fields).take 12 ∧ 12 < (encodeMessage fields).length ∧
    ¬NothingPerformed m true w fields (serveConnection m true reads) := by
  refine ⟨by decide, by decide, ?_⟩
  intro h
  have haction : serveConnection m true reads = .lifecycle (.remove [97, 98]) := rfl
  have hrun := congrArg (fun r => (r.2.store.visible.loadWorkspaceRecord [97, 98]).map (·.state)) (h.untouched _ haction)
  exact absurd hrun (by decide +kernel)

/-- Cut inside the verb, the request comes to nothing. -/
theorem cut_verb : NothingPerformed m true w fields (serveConnection m true [⟨[119, 115, 46, 114], by decide, by decide⟩]) := by
  refine (only_complete_requests m true w fields 4 _ (by decide) (by decide)).2 ⟨?_, ?_, ?_, ?_, ?_⟩
  · exact fun h => absurd h (by decide)
  · exact fun h => absurd h (by decide)
  · exact fun h => absurd h (by decide)
  · exact fun h => absurd h (by decide)
  · exact fun verb h => absurd h (by cases verb <;> decide)

end CompleteWitness

end TribiosVfs

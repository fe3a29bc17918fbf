import TribiosVfs.Lifecycle
import TribiosVfs.Lemmas.LifecycleCalls
import TribiosVfs.Lemmas.Triples

/-!
# Contracts over the lifecycle records

What each thread of the daemon does to the states of the Workspace records and to the lifecycle's journal records, and what it
relies on. What carries the contracts past a removal's thread is `Above`: a Removed record has a pending removal younger than
the thread's own, so the thread can drop its own.
-/

namespace TribiosVfs

/-- Every Creating record has a pending creation of its name, every Removed record a pending removal. -/
def Tables.Recoverable (t : Tables) : Prop := ∀ name,
  (t.HasState name .creating → ∃ id, t.Pending .workspaceCreate name id) ∧
    (t.HasState name .removed → ∃ id, t.Pending .workspaceRemove name id)

/-- The calls of `set_workspace_state`. -/
def Call.setsState : {β : Type} → Call β → Bool
  | _, .setWorkspaceState _ _ => true
  | _, _ => false

/-- The name whose record a call of `load_workspace_record` reads. -/
def Call.loadsRecord : {β : Type} → Call β → Option Name
  | _, .loadWorkspaceRecord name => some name
  | _, _ => none

/-- Which calls of the main thread may fail: while it serves requests, any but `set_workspace_state`; while it starts, any but
the read of a Creating or Removed record. -/
def recordFaults : DaemonState → Faults
  | .up _ => ⟨fun c _ => c.setsState = false⟩
  | _ => ⟨fun c w => ∀ name, c.loadsRecord = some name →
      ¬w.store.visible.HasState name .creating ∧ ¬w.store.visible.HasState name .removed⟩

/-- The id is of no lifecycle record. -/
def World.EngineId (w : World) (id : Nat) : Prop := ∀ kind name, kind.lifecycle = true → ¬w.store.visible.Pending kind name id

/-- The calls by which engines change the journal: each its own records. -/
def Call.engineRecord : {β : Type} → Call β → World → Prop
  | _, .beginRecoveryOperation operation, _ => operation.kind.lifecycle = false
  | _, .setRecoveryOperationPhase id _, w => w.EngineId id
  | _, .finishRecoveryOperation operation, w => w.EngineId operation.id
  | _, .abandonRecoveryOperation id, w => w.EngineId id
  | _, _, _ => False

/-- What happens around the lifecycle: the host and Git change as they like, and engines write their journal records. -/
inductive Around (w : World) : World → Prop where
  | host {w' : World} : w'.store = w.store → Around w w'
  | engine {β : Type} {c : Call β} {r : Except Errno β} {w' : World} :
      c.engineRecord w → (hosts anyFaults).step c w r w' → Around w w'

/-- The daemon where calls may fail but those that `recordFaults` excepts. -/
def recordLifecycle (root : HostPath) : Workers.System Call Errno DaemonState Reclamation World :=
  lifecycle root (fun d => hosts (recordFaults d)) (hosts anyFaults) (fun _ => Around)

namespace RecordsAux

open Tables

/-! ## Tables -/

/-- A Removed record of the name has a pending removal with a greater id. -/
def Above (t : Tables) (name : Name) (id : Nat) : Prop :=
  t.HasState name .removed → ∃ i, id < i ∧ t.Pending .workspaceRemove name i

structure Good (t : Tables) : Prop where
  keyed : t.Keyed
  recoverable : t.Recoverable

/-- The journal record of the id can be dropped. -/
structure Droppable (t : Tables) (id : Nat) : Prop where
  create : ∀ name, t.Pending .workspaceCreate name id → t.HasState name .creating →
    ∃ i, i ≠ id ∧ t.Pending .workspaceCreate name i
  remove : ∀ name, t.Pending .workspaceRemove name id → Above t name id

section tables

variable {t t' : Tables} {name : Name} {id : Nat}

theorem Droppable.of_engine (h : ∀ kind name, kind.lifecycle = true → ¬t.Pending kind name id) : Droppable t id :=
  ⟨fun name hp => absurd hp (h _ name rfl), fun name hp => absurd hp (h _ name rfl)⟩

theorem above_same (h : Same t t') (ha : Above t name id) : Above t' name id := by
  intro hs
  obtain ⟨i, hi, hp⟩ := ha ((h.states _ _).mp hs)
  exact ⟨i, hi, (h.pending _ _ _).mpr hp⟩

theorem above_abandon (hd : Droppable t id) {i : Nat} (ha : Above t name i) : Above (t.abandonRecoveryOperation id) name i := by
  intro hs
  obtain ⟨i', hi, hp⟩ := ha hs
  by_cases he : i' = id
  · obtain ⟨i'', hi', hp'⟩ := hd.remove name (he ▸ hp) hs
    exact ⟨i'', by omega, (pending_abandon ..).mpr ⟨hp', by omega⟩⟩
  · exact ⟨i', hi, (pending_abandon ..).mpr ⟨hp, he⟩⟩

theorem above_save {record : WorkspaceRecord} (hr : record.state = .removed →
    ∃ i, id < i ∧ t.Pending .workspaceRemove record.name i) (ha : Above t name id) :
    Above (t.saveWorkspaceRecord record) name id := by
  intro hs
  rcases (hasState_save ..).mp hs with ⟨rfl, hst⟩ | ⟨-, hs'⟩
  · exact hr hst.symm
  · exact ha hs'

theorem above_reclaimed (n : Name) (ha : Above t name id) : Above (t.setWorkspaceState n .reclaimed) name id := by
  intro hs
  rcases (hasState_setState ..).mp hs with ⟨-, hs'⟩ | ⟨-, h, -⟩
  · exact ha hs'
  · cases h

theorem above_begin (operation : RecoveryOperation) (ha : Above t name id) :
    Above (t.beginRecoveryOperation operation) name id := by
  intro hs
  obtain ⟨i, hi, hp⟩ := ha hs
  exact ⟨i, hi, (pending_begin ..).mpr (Or.inl hp)⟩

theorem good_same (h : Same t t') (hg : Good t) : Good t' where
  keyed := h.keyed hg.keyed
  recoverable name := by
    refine ⟨fun hs => ?_, fun hs => ?_⟩
    · obtain ⟨i, hp⟩ := (hg.recoverable name).1 ((h.states _ _).mp hs)
      exact ⟨i, (h.pending _ _ _).mpr hp⟩
    · obtain ⟨i, hp⟩ := (hg.recoverable name).2 ((h.states _ _).mp hs)
      exact ⟨i, (h.pending _ _ _).mpr hp⟩

theorem good_abandon (hd : Droppable t id) (hg : Good t) : Good (t.abandonRecoveryOperation id) where
  keyed := hg.keyed.abandon id
  recoverable name := by
    refine ⟨fun hs => ?_, fun hs => ?_⟩
    · obtain ⟨i, hp⟩ := (hg.recoverable name).1 hs
      by_cases he : i = id
      · obtain ⟨i', hne, hp'⟩ := hd.create name (he ▸ hp) hs
        exact ⟨i', (pending_abandon ..).mpr ⟨hp', hne⟩⟩
      · exact ⟨i, (pending_abandon ..).mpr ⟨hp, he⟩⟩
    · obtain ⟨i, hp⟩ := (hg.recoverable name).2 hs
      by_cases he : i = id
      · obtain ⟨i', hlt, hp'⟩ := hd.remove name (he ▸ hp) hs
        exact ⟨i', (pending_abandon ..).mpr ⟨hp', by omega⟩⟩
      · exact ⟨i, (pending_abandon ..).mpr ⟨hp, he⟩⟩

theorem good_begin (operation : RecoveryOperation) (hg : Good t) : Good (t.beginRecoveryOperation operation) where
  keyed := hg.keyed.begin operation
  recoverable name := by
    refine ⟨fun hs => ?_, fun hs => ?_⟩
    · obtain ⟨i, hp⟩ := (hg.recoverable name).1 hs
      exact ⟨i, (pending_begin ..).mpr (Or.inl hp)⟩
    · obtain ⟨i, hp⟩ := (hg.recoverable name).2 hs
      exact ⟨i, (pending_begin ..).mpr (Or.inl hp)⟩

theorem good_save {record : WorkspaceRecord}
    (hc : record.state = .creating → ∃ i, t.Pending .workspaceCreate record.name i)
    (hr : record.state = .removed → ∃ i, t.Pending .workspaceRemove record.name i) (hg : Good t) :
    Good (t.saveWorkspaceRecord record) where
  keyed := hg.keyed.save record
  recoverable name := by
    refine ⟨fun hs => ?_, fun hs => ?_⟩
    · rcases (hasState_save ..).mp hs with ⟨rfl, hst⟩ | ⟨-, hs'⟩
      · exact hc hst.symm
      · exact (hg.recoverable name).1 hs'
    · rcases (hasState_save ..).mp hs with ⟨rfl, hst⟩ | ⟨-, hs'⟩
      · exact hr hst.symm
      · exact (hg.recoverable name).2 hs'

theorem good_reclaimed (n : Name) (hg : Good t) : Good (t.setWorkspaceState n .reclaimed) where
  keyed := hg.keyed.setState n _
  recoverable name := by
    refine ⟨fun hs => ?_, fun hs => ?_⟩
    · rcases (hasState_setState ..).mp hs with ⟨-, hs'⟩ | ⟨-, h, -⟩
      · exact (hg.recoverable name).1 hs'
      · cases h
    · rcases (hasState_setState ..).mp hs with ⟨-, hs'⟩ | ⟨-, h, -⟩
      · exact (hg.recoverable name).2 hs'
      · cases h

theorem droppable_same (h : Same t t') (hd : Droppable t id) : Droppable t' id where
  create name hp hs := by
    obtain ⟨i, hne, hp'⟩ := hd.create name ((h.pending _ _ _).mp hp) ((h.states _ _).mp hs)
    exact ⟨i, hne, (h.pending _ _ _).mpr hp'⟩
  remove name hp := above_same h (hd.remove name ((h.pending _ _ _).mp hp))

theorem good_settles (hs : Settles id t t') (hd : Droppable t id) (hg : Good t) : Good t' := by
  rcases hs with hs | ⟨t₁, hs, rfl⟩
  · exact good_same hs hg
  · exact good_abandon (droppable_same hs hd) (good_same hs hg)

end tables

/-- What a step of others does to the tables, when only removals with an id of `mine` are theirs. -/
structure Others (mine : Nat → Prop) (t t' : Tables) : Prop where
  creates : ∀ name id, t.Pending .workspaceCreate name id → t'.Pending .workspaceCreate name id
  removes : ∀ name id, ¬mine id → t.Pending .workspaceRemove name id → t'.Pending .workspaceRemove name id
  fresh : ∀ kind name id, kind.lifecycle = true → t'.Pending kind name id → t.Pending kind name id
  next : t.nextId ≤ t'.nextId
  states : ∀ name state, state ≠ .reclaimed → t'.HasState name state → t.HasState name state
  above : ∀ name id, Above t name id → Above t' name id

section others

variable {mine mine' : Nat → Prop} {t t' t'' : Tables}

theorem Others.trans (h : Others mine t t') (h' : Others mine t' t'') : Others mine t t'' where
  creates name id hp := h'.creates name id (h.creates name id hp)
  removes name id hn hp := h'.removes name id hn (h.removes name id hn hp)
  fresh kind name id hk hp := h.fresh kind name id hk (h'.fresh kind name id hk hp)
  next := h.next.trans h'.next
  states name state hs hp := h.states name state hs (h'.states name state hs hp)
  above name id ha := h'.above name id (h.above name id ha)

theorem Others.mono (h : Others mine t t') (hm : ∀ id, mine id → mine' id) : Others mine' t t' :=
  { h with removes := fun name id hn hp => h.removes name id (fun hi => hn (hm id hi)) hp }

theorem Others.of_same (h : Same t t') : Others mine t t' where
  creates _ _ hp := (h.pending _ _ _).mpr hp
  removes _ _ _ hp := (h.pending _ _ _).mpr hp
  fresh _ _ _ _ hp := (h.pending _ _ _).mp hp
  next := h.nextId.ge
  states _ _ _ hs := (h.states _ _).mp hs
  above _ _ ha := above_same h ha

theorem Others.refl (t : Tables) : Others mine t t := Others.of_same (Same.refl t)

theorem others_reclaimed (t : Tables) (n : Name) : Others mine t (t.setWorkspaceState n .reclaimed) where
  creates _ _ hp := hp
  removes _ _ _ hp := hp
  fresh _ _ _ _ hp := hp
  next := le_rfl
  states _ _ hne hs := by
    rcases (hasState_setState ..).mp hs with ⟨-, hs'⟩ | ⟨-, h, -⟩
    · exact hs'
    · exact absurd h hne
  above _ _ ha := above_reclaimed n ha

/-- Dropping a record that is no creation. -/
theorem others_abandon {id : Nat} (hd : Droppable t id) (hm : ∀ name, t.Pending .workspaceRemove name id → mine id)
    (hc : ∀ name, ¬t.Pending .workspaceCreate name id) : Others mine t (t.abandonRecoveryOperation id) where
  creates name _ hp := (pending_abandon ..).mpr ⟨hp, fun he => hc name (he ▸ hp)⟩
  removes name _ hn hp := (pending_abandon ..).mpr ⟨hp, fun he => hn (he ▸ hm name (he ▸ hp))⟩
  fresh _ _ _ _ hp := ((pending_abandon ..).mp hp).1
  next := le_rfl
  states _ _ _ hs := hs
  above _ _ ha := above_abandon hd ha

theorem others_begin (operation : RecoveryOperation) (hk : operation.kind.lifecycle = false) :
    Others mine t (t.beginRecoveryOperation operation) where
  creates _ _ hp := (pending_begin ..).mpr (Or.inl hp)
  removes _ _ _ hp := (pending_begin ..).mpr (Or.inl hp)
  fresh _ _ _ hl hp := by
    rcases (pending_begin ..).mp hp with hp | ⟨rfl, -, -⟩
    · exact hp
    · rw [hk] at hl
      cases hl
  next := Nat.le_succ _
  states _ _ _ hs := hs
  above _ _ ha := above_begin operation ha

end others

/-! ## Contracts -/

/-- What holds at every point of a run. -/
structure Kept (w : World) : Prop where
  committed : Good w.store.committed
  visible : Good w.store.visible

theorem Kept.step {F : Faults} {β : Type} {c : Call β} {w w' : World} {r : Except Errno β} (hk : Kept w)
    (h : (hosts F).step c w r w') (hv : Good w'.store.visible) : Kept w' := by
  rcases step_commits h with hc | hc
  · exact ⟨hc ▸ hk.committed, hv⟩
  · exact ⟨hc ▸ hv, hv⟩

/-- The ids of the jobs. -/
def Mine (tags : List Reclamation) (id : Nat) : Prop := ∃ j ∈ tags, j.id = id

/-- What the other threads leave a job. -/
structure JobKept (j : Reclamation) (t t' : Tables) : Prop where
  pending : t.Pending .workspaceRemove j.name j.id → t'.Pending .workspaceRemove j.name j.id
  above : Above t j.name j.id → Above t' j.name j.id

theorem JobKept.trans {j : Reclamation} {t t' t'' : Tables} (h : JobKept j t t') (h' : JobKept j t' t'') : JobKept j t t'' :=
  ⟨fun hp => h'.pending (h.pending hp), fun ha => h'.above (h.above ha)⟩

theorem Others.jobKept {mine : Nat → Prop} {t t' : Tables} (h : Others mine t t') {j : Reclamation} (hj : ¬mine j.id) :
    JobKept j t t' := ⟨h.removes _ _ hj, h.above _ _⟩

/-- The main thread next to the jobs `tags`. -/
def mainContract (tags : List Reclamation) : Contract World where
  rely w w' := (Kept w → Kept w') ∧ Others (Mine tags) w.store.visible w'.store.visible
  guar w w' := (Kept w → Kept w') ∧ ∀ j ∈ tags, JobKept j w.store.visible w'.store.visible
  inv := Kept
  rely_refl _ := ⟨id, Others.refl _⟩
  rely_trans _ _ _ h h' := ⟨fun hk => h'.1 (h.1 hk), h.2.trans h'.2⟩

/-- The thread of a removal. -/
def jobContract (j : Reclamation) : Contract World where
  rely w w' := (Kept w → Kept w') ∧ JobKept j w.store.visible w'.store.visible
  guar w w' := (Kept w → Kept w') ∧ Others (· = j.id) w.store.visible w'.store.visible
  inv := Kept
  rely_refl _ := ⟨id, id, id⟩
  rely_trans _ _ _ h h' := ⟨fun hk => h'.1 (h.1 hk), h.2.trans h'.2⟩

/-! ## The main thread -/

/-- A property of the tables that the jobs `tags` keep. -/
def Closed (tags : List Reclamation) (B : Tables → Prop) : Prop := ∀ t t', Others (Mine tags) t t' → B t → B t'

/-- What the main thread knows: the ids of the jobs have been given out, and a property of the tables. -/
structure At (tags : List Reclamation) (B : Tables → Prop) (w : World) : Prop where
  kept : Kept w
  below : ∀ j ∈ tags, j.id < w.store.visible.nextId
  known : B w.store.visible

section main

variable {tags : List Reclamation} {F : Faults} {B B' : Tables → Prop} {ε α : Type} {id : Nat} {name : Name}

theorem Closed.top : Closed tags (fun _ => True) := fun _ _ _ _ => trivial

theorem Closed.const {p : Prop} : Closed tags (fun _ => p) := fun _ _ _ hp => hp

theorem Closed.and (h : Closed tags B) (h' : Closed tags B') : Closed tags (fun t => B t ∧ B' t) :=
  fun t t' ho hb => ⟨h t t' ho hb.1, h' t t' ho hb.2⟩

theorem closed_create : Closed tags (fun t => t.Pending .workspaceCreate name id) := fun _ _ ho hp => ho.creates _ _ hp

theorem closed_remove (h : ∀ j ∈ tags, j.id < id) : Closed tags (fun t => t.Pending .workspaceRemove name id) :=
  fun _ _ ho hp => ho.removes _ _ (fun ⟨j, hj, he⟩ => (Nat.ne_of_lt (h j hj)) he) hp

theorem closed_not {state : WorkspaceState} (h : state ≠ .reclaimed) : Closed tags (fun t => ¬t.HasState name state) :=
  fun _ _ ho hn hs => hn (ho.states _ _ h hs)

theorem closed_other : Closed tags (fun t => t.HasState name .creating → ∃ i, i ≠ id ∧ t.Pending .workspaceCreate name i) := by
  intro t t' ho ht hs
  obtain ⟨i, hne, hp⟩ := ht (ho.states _ _ (by decide) hs)
  exact ⟨i, hne, ho.creates _ _ hp⟩

theorem At.steady (h : Closed tags B) : Steady (mainContract tags) (At tags B) :=
  ⟨fun _ _ ha hr => ⟨hr.1 ha.kept, fun j hj => (ha.below j hj).trans_le hr.2.next, h _ _ hr.2 ha.known⟩, fun _ ha => ha.kept⟩

theorem At.mono {w : World} (h : At tags B w) (hb : ∀ t, B t → B' t) : At tags B' w := ⟨h.kept, h.below, hb _ h.known⟩

/-- Helpers that keep the records keep what is known. -/
theorem main_keeps {p : Fallible ε α} (hp : Calls (·.keepsRecords = true) p) (hB : Closed tags B) :
    Ensures (hosts F) (mainContract tags) (At tags B) p (fun _ => At tags B) (fun _ => At tags B) := by
  refine ensures_kept hp (At.steady hB) (fun c w r w' hc ha hs => ?_)
  have hsame := step_same hc hs
  have hkept := ha.kept.step hs (good_same hsame ha.kept.visible)
  have hothers : Others (fun _ => False) w.store.visible w'.store.visible := Others.of_same hsame
  refine ⟨⟨fun _ => hkept, fun j _ => hothers.jobKept not_false⟩, hkept, ?_, ?_⟩
  · rw [hsame.nextId]
    exact ha.below
  · exact hB _ _ (Others.of_same hsame) ha.known

theorem main_reads {p : Fallible ε α} (hp : Calls (·.reads = true) p) (hB : Closed tags B) :
    Ensures (hosts F) (mainContract tags) (At tags B) p (fun _ => At tags B) (fun _ => At tags B) :=
  main_keeps hp.plain.keepsRecords hB

/-- One statement over the tables: what it does where it works; where it fails it has no effect. -/
theorem main_statement {c : Call Unit} {f : Tables → Tables} (hc : c.failsWhole = true)
    (hexec : ∀ w, exec c w = w.onStore f) (hB : Closed tags B) (hB' : Closed tags B')
    (hgood : ∀ t, B t → Good t → Good (f t)) (hnext : ∀ t, (f t).nextId = t.nextId)
    (hjob : ∀ t, B t → Good t → ∀ j ∈ tags, JobKept j t (f t)) (hpost : ∀ t, B t → Good t → B' (f t)) :
    Ensures (hosts F) (mainContract tags) (At tags B) (Io.call c) (fun _ => At tags B')
      (fun _ w => At tags B w ∧ ∃ w₀, F.may c w₀) := by
  refine ensures_call (At.steady hB) (fun _ => At.steady hB') (fun _ => ?_) (fun w r w' ha hs => ?_)
  · exact ⟨fun w w' h hr => ⟨(At.steady hB).rely w w' h.1 hr, h.2⟩, fun w h => h.1.kept⟩
  · rcases step_whole hc hs with he | ⟨hmay, ⟨x, rfl⟩, rfl⟩
    · rw [hexec] at he
      obtain ⟨rfl, rfl⟩ := Prod.mk.inj he
      have hv := Store.visible_update w.store f
      have hkept := ha.kept.step hs (by rw [hv]; exact hgood _ ha.known ha.kept.visible)
      refine ⟨⟨fun _ => hkept, fun j hj => by rw [hv]; exact hjob _ ha.known ha.kept.visible j hj⟩, hkept, ?_, ?_⟩
      · rw [hv, hnext]
        exact ha.below
      · rw [hv]
        exact hpost _ ha.known ha.kept.visible
    · exact ⟨⟨fun _ => ha.kept, fun j _ => ⟨id, id⟩⟩, ha, w', hmay⟩

theorem jobKept_abandon {t : Tables} {j : Reclamation} (hd : Droppable t id) (hj : j.id ≠ id) :
    JobKept j t (t.abandonRecoveryOperation id) :=
  ⟨fun hp => (pending_abandon ..).mpr ⟨hp, hj⟩, above_abandon hd⟩

/-- A journal record that can be dropped, and is no job's, is dropped. -/
theorem main_abandon (hB : Closed tags B) (hB' : Closed tags B') (hd : ∀ t, B t → Good t → Droppable t id)
    (hj : ∀ j ∈ tags, j.id ≠ id) (hpost : ∀ t, B t → B' (t.abandonRecoveryOperation id)) :
    Ensures (hosts F) (mainContract tags) (At tags B) (Io.call (.abandonRecoveryOperation id)) (fun _ => At tags B')
      (fun _ => At tags B) :=
  (main_statement rfl (fun _ => rfl) hB hB' (fun t hb hg => good_abandon (hd t hb hg) hg) (fun _ => rfl)
    (fun t hb hg _ hjt => jobKept_abandon (hd t hb hg) (hj _ hjt)) (fun t hb _ => hpost t hb)).mono
    (fun _ h => h) (fun _ _ h => h) (fun _ _ h => h.1)

theorem main_save {record : WorkspaceRecord} (hB : Closed tags B) (hB' : Closed tags B')
    (hc : ∀ t, B t → record.state = .creating → ∃ i, t.Pending .workspaceCreate record.name i)
    (hr : ∀ t, B t → record.state = .removed → ∃ i, (∀ j ∈ tags, j.id < i) ∧ t.Pending .workspaceRemove record.name i)
    (hpost : ∀ t, B t → B' (t.saveWorkspaceRecord record)) :
    Ensures (hosts F) (mainContract tags) (At tags B) (Io.call (.saveWorkspaceRecord record)) (fun _ => At tags B')
      (fun _ => At tags B) := by
  refine (main_statement rfl (fun _ => rfl) hB hB' (fun t hb hg => good_save (hc t hb) (fun h => ?_) hg) (fun _ => rfl)
    (fun t hb hg j hj => ⟨fun hp => hp, above_save (fun h => ?_)⟩) (fun t hb _ => hpost t hb)).mono
    (fun _ h => h) (fun _ _ h => h) (fun _ _ h => h.1)
  · obtain ⟨i, -, hp⟩ := hr t hb h
    exact ⟨i, hp⟩
  · obtain ⟨i, hi, hp⟩ := hr t hb h
    exact ⟨i, hi j hj, hp⟩

theorem main_reclaimed (hB : Closed tags B) (hB' : Closed tags B')
    (hpost : ∀ t, B t → B' (t.setWorkspaceState name .reclaimed)) :
    Ensures (hosts F) (mainContract tags) (At tags B) (Io.call (.setWorkspaceState name .reclaimed)) (fun _ => At tags B')
      (fun _ w => At tags B w ∧ ∃ w₀, F.may (.setWorkspaceState name .reclaimed) w₀) :=
  main_statement rfl (fun _ => rfl) hB hB' (fun _ _ hg => good_reclaimed name hg) (fun _ => rfl)
    (fun _ _ _ _ _ => ⟨fun hp => hp, above_reclaimed name⟩) (fun t hb _ => hpost t hb)

/-- A journal record is begun: its id is younger than those of the jobs, and no creation relies on it yet. -/
theorem main_begin (operation : RecoveryOperation) (hk : operation.kind = .workspaceCreate ∨ operation.kind = .workspaceRemove)
    (hB : Closed tags B) (hb : ∀ t, B t → B (t.beginRecoveryOperation operation)) :
    Ensures (hosts F) (mainContract tags) (At tags B) (Io.call (.beginRecoveryOperation operation))
      (fun id => At tags (fun t => (∀ j ∈ tags, j.id < id) ∧ t.Pending operation.kind operation.workspace id ∧
        (t.HasState operation.workspace .creating → ∃ i, i ≠ id ∧ t.Pending .workspaceCreate operation.workspace i) ∧ B t))
      (fun _ => At tags B) := by
  have hclosed : ∀ id, Closed tags (fun t => (∀ j ∈ tags, j.id < id) ∧ t.Pending operation.kind operation.workspace id ∧
      (t.HasState operation.workspace .creating → ∃ i, i ≠ id ∧ t.Pending .workspaceCreate operation.workspace i) ∧ B t) := by
    intro id t t' ho ⟨hlt, hp, hot, hbt⟩
    refine ⟨hlt, ?_, closed_other t t' ho hot, hB t t' ho hbt⟩
    rcases hk with hk | hk
    · rw [hk] at hp ⊢
      exact closed_create t t' ho hp
    · rw [hk] at hp ⊢
      exact closed_remove hlt t t' ho hp
  refine ensures_call (At.steady hB) (fun id => At.steady (hclosed id)) (fun _ => At.steady hB) (fun w r w' ha hs => ?_)
  rcases step_whole rfl hs with he | ⟨-, ⟨x, rfl⟩, rfl⟩
  · obtain ⟨rfl, rfl⟩ := Prod.mk.inj he
    have hv := Store.visible_update w.store (·.beginRecoveryOperation operation)
    have hg := ha.kept.visible
    have hkept := ha.kept.step hs (by rw [hv]; exact good_begin operation hg)
    refine ⟨⟨fun _ => hkept, fun j _ => ?_⟩, hkept, fun j hj => ?_, ?_⟩
    · rw [hv]
      exact ⟨fun hp => (pending_begin ..).mpr (Or.inl hp), above_begin operation⟩
    · rw [hv]
      exact Nat.lt_succ_of_lt (ha.below j hj)
    · rw [hv]
      refine ⟨ha.below, (pending_begin ..).mpr (Or.inr ⟨rfl, rfl, rfl⟩), fun hst => ?_, hb _ ha.known⟩
      obtain ⟨i, hp⟩ := (hg.recoverable operation.workspace).1 hst
      exact ⟨i, Nat.ne_of_lt (hg.keyed.pending_below hp), (pending_begin ..).mpr (Or.inl hp)⟩
  · exact ⟨⟨fun _ => ha.kept, fun j _ => ⟨id, id⟩⟩, ha⟩

end main

/-! ## Creation -/

/-- The creation's journal record is pending, and younger than those of the jobs. -/
def Creating (tags : List Reclamation) (name : Name) (id : Nat) (t : Tables) : Prop :=
  (∀ j ∈ tags, j.id < id) ∧ t.Pending .workspaceCreate name id

/-- No Creating record of the name relies on the creation's journal record. -/
def Spare (tags : List Reclamation) (name : Name) (id : Nat) (t : Tables) : Prop :=
  Creating tags name id t ∧ (t.HasState name .creating → ∃ i, i ≠ id ∧ t.Pending .workspaceCreate name i)

section create

variable {tags : List Reclamation} {m : Manager} {paths : ProjectPaths} {name branch : Name} {id : Nat} {α : Type}

theorem creating_closed : Closed tags (Creating tags name id) := Closed.const.and closed_create

theorem spare_closed : Closed tags (Spare tags name id) := creating_closed.and closed_other

theorem Spare.droppable {t : Tables} (h : Spare tags name id t) (hg : Good t) : Droppable t id where
  create n hp hs := by
    obtain ⟨-, rfl⟩ := hg.keyed.pending_unique hp h.1.2
    exact h.2 hs
  remove n hp := absurd (hg.keyed.pending_unique hp h.1.2).1 (by decide)

/-- The spare journal record of a creation is dropped. -/
theorem dropSpare_does {F : Faults} : Ensures (hosts F) (mainContract tags) (At tags (Spare tags name id))
    (Io.call (.abandonRecoveryOperation id)) (fun _ => At tags (fun _ => True)) (fun _ => At tags (fun _ => True)) := by
  intro w hw
  have hlt := hw.known.1.1
  exact (main_abandon spare_closed Closed.top (fun t hb hg => hb.droppable hg)
    (fun j hj => Nat.ne_of_lt (hlt j hj)) (fun _ _ => trivial)).mono (fun _ h => h) (fun _ _ h => h)
    (fun _ _ h => h.mono (fun _ _ => trivial)) w hw

theorem abandonCreation_does (e : LifecycleError) {Q : α → World → Prop} :
    Ensures (hosts (recordFaults (.up m))) (mainContract tags) (At tags (Creating tags name id))
      (abandonCreation name id e) Q (fun _ => At tags (fun _ => True)) := by
  have hset : Ensures (hosts (recordFaults (.up m))) (mainContract tags) (At tags (Creating tags name id))
      (Io.call (.setWorkspaceState name .reclaimed)) (fun _ => At tags (Spare tags name id))
      (fun _ => At tags (Spare tags name id)) := by
    refine (main_reclaimed creating_closed spare_closed (fun t hc => ⟨hc, fun hs => ?_⟩)).mono (fun _ h => h) (fun _ _ h => h)
      (fun _ _ h => ?_)
    · rcases (hasState_setState ..).mp hs with ⟨hne, -⟩ | ⟨-, hst, -⟩
      · exact absurd rfl hne
      · cases hst
    · obtain ⟨-, w₀, hmay⟩ := h
      cases hmay
  refine ensures_bind (ensures_ignore hset (At.steady spare_closed)) (fun _ => At.steady Closed.top) (fun _ => ?_)
  refine ensures_bind (ensures_ignore dropSpare_does (At.steady Closed.top)) (fun _ => At.steady Closed.top) (fun _ => ?_)
  exact ensures_fail (At.steady Closed.top) (fun _ h => h)

theorem undoCreation_does (e : LifecycleError) {Q : α → World → Prop} :
    Ensures (hosts (recordFaults (.up m))) (mainContract tags) (At tags (Creating tags name id))
      (undoCreation paths name branch id e) Q (fun _ => At tags (fun _ => True)) := by
  have hrollback : Calls (·.keepsRecords = true) (rollbackLinkedWorktreeCreation paths.root branch
      (paths.mountPoint ++ [name]) (paths.stagingDir ++ [name])) :=
    rollbackLinkedWorktreeCreation_calls (fun _ => Call.keepsRecords_of_plain) rfl rfl rfl
  refine ensures_bind (ensures_ignore (main_keeps hrollback creating_closed) (At.steady creating_closed))
    (fun _ => At.steady Closed.top) (fun _ => ?_)
  refine ensures_bind (ensures_ignore (main_keeps (removeAll_plain _).keepsRecords creating_closed) (At.steady creating_closed))
    (fun _ => At.steady Closed.top) (fun _ => ?_)
  exact abandonCreation_does e

/-- A store call whose failure is reported as it is. -/
theorem ensures_stored {S : Semantics Call Errno World} {C : Contract World} {P : World → Prop} {Q : α → World → Prop}
    {X : Errno → World → Prop} {R : World → Prop} {c : Call α} (h : Ensures S C P (Io.call c) Q X) (hQ : ∀ a, Steady C (Q a))
    (hX : ∀ x, Steady C (X x)) (hR : ∀ x w, X x w → R w) : Ensures S C P (stored c) Q (fun _ => R) :=
  ensures_orElseDo h hQ (fun x => ensures_fail (hX x) (hR x))

theorem clock_does {F : Faults} {B : Tables → Prop} (hB : Closed tags B) :
    Ensures (hosts F) (mainContract tags) (At tags B) (stored .clock) (fun _ => At tags B)
      (fun _ => At tags (fun _ => True)) :=
  ensures_stored (main_reads (calls_call rfl) hB) (fun _ => At.steady hB) (fun _ => At.steady hB)
    (fun _ _ h => h.mono (fun _ _ => trivial))

theorem journalCreation_does {F : Faults} : Ensures (hosts F) (mainContract tags) (At tags (fun _ => True))
    (journalCreation name branch) (fun id => At tags (Spare tags name id)) (fun _ => At tags (fun _ => True)) := by
  refine ensures_bind (R := fun _ => At tags (fun _ => True)) ?_ (fun _ => At.steady Closed.top) (fun _ => ?_)
  · exact ensures_orElseDo (main_reads (calls_call rfl) Closed.top) (fun _ => At.steady Closed.top)
      (fun _ => ensures_fail (At.steady Closed.top) (fun _ h => h))
  · have hclosed : Closed tags (fun _ => True) := Closed.top
    have hbegin := main_begin (F := F) {
      workspace := name, kind := .workspaceCreate, path := [name], target := RelPath.ofText branch } (Or.inl rfl) hclosed
      (fun _ _ => trivial)
    exact ensures_stored (hbegin.mono (fun _ h => h) (fun _ _ h => h.mono (fun t ht => ⟨⟨ht.1, ht.2.1⟩, ht.2.2.1⟩))
      (fun _ _ h => h)) (fun _ => At.steady spare_closed) (fun _ => At.steady Closed.top) (fun _ _ h => h)

/-- The record is in state Creating; where that fails, the journal record is dropped. -/
theorem saveCreating_does {F : Faults} {record : WorkspaceRecord} (hs : record.state = .creating) (hn : record.name = name) :
    Ensures (hosts F) (mainContract tags) (At tags (Spare tags name id)) (saveCreating record id)
      (fun _ => At tags (Creating tags name id)) (fun _ => At tags (fun _ => True)) := by
  have hdrop : ∀ e : LifecycleError, Ensures (hosts F) (mainContract tags) (At tags (Spare tags name id)) (do
      (Io.call (.abandonRecoveryOperation id)).ignore
      Fallible.fail e) (fun (_ : Unit) => At tags (Spare tags name id)) (fun _ => At tags (fun _ => True)) := by
    intro e
    refine ensures_bind (ensures_ignore dropSpare_does (At.steady Closed.top)) (fun _ => At.steady Closed.top) (fun _ => ?_)
    exact ensures_fail (At.steady Closed.top) (fun _ h => h)
  refine ensures_bind (R := fun _ => At tags (Spare tags name id)) ?_ (fun _ => At.steady Closed.top) (fun _ => ?_)
  · exact ensures_orElseDo (main_reads (calls_call rfl) spare_closed) (fun _ => At.steady spare_closed) (fun _ => hdrop _)
  · refine ensures_orElseDo (main_save spare_closed creating_closed (fun t hb _ => ⟨id, hn ▸ hb.1.2⟩) (fun t hb h => ?_)
      (fun t hb => hb.1)) (fun _ => At.steady creating_closed) (fun x => ?_)
    · rw [hs] at h
      cases h
    · exact (hdrop _).mono (fun _ h => h) (fun _ _ h => h.mono (fun _ ht => ht.1)) (fun _ _ h => h)

/-- A step of a creation that keeps what is known, and gives the creation up where it fails. -/
theorem orUndo_does {F : Faults} {ε : Type} {p : Fallible ε α} {f : ε → Fallible LifecycleError α}
    (hp : Calls (·.keepsRecords = true) p)
    (hf : ∀ x, Ensures (hosts F) (mainContract tags) (At tags (Creating tags name id)) (f x)
      (fun _ => At tags (Creating tags name id)) (fun _ => At tags (fun _ => True))) :
    Ensures (hosts F) (mainContract tags) (At tags (Creating tags name id)) (p.orElseDo f)
      (fun _ => At tags (Creating tags name id)) (fun _ => At tags (fun _ => True)) :=
  ensures_orElseDo (main_keeps hp creating_closed) (fun _ => At.steady creating_closed) hf

theorem createStorage_does : Ensures (hosts (recordFaults (.up m))) (mainContract tags) (At tags (Creating tags name id))
    (createStorage paths name id) (fun _ => At tags (Creating tags name id)) (fun _ => At tags (fun _ => True)) := by
  have hfail : ∀ e : LifecycleError, Ensures (hosts (recordFaults (.up m))) (mainContract tags) (At tags (Creating tags name id))
      (Fallible.fail e : Fallible LifecycleError Unit) (fun _ => At tags (Creating tags name id))
      (fun _ => At tags (fun _ => True)) :=
    fun e => ensures_fail (At.steady creating_closed) (fun _ h => h.mono (fun _ _ => trivial))
  refine ensures_bind (orUndo_does (calls_call rfl) (fun x => abandonCreation_does _)) (fun _ => At.steady Closed.top)
    (fun _ => ?_)
  refine ensures_bind (orUndo_does (createDirectories_plain _).keepsRecords (fun x => hfail _)) (fun _ => At.steady Closed.top) (fun _ => ?_)
  exact orUndo_does (syncParentDirectory_plain _).keepsRecords (fun x => hfail _)

theorem connectWorktree_does : Ensures (hosts (recordFaults (.up m))) (mainContract tags) (At tags (Creating tags name id))
    (connectWorktree paths name branch id) (fun _ => At tags (Creating tags name id)) (fun _ => At tags (fun _ => True)) := by
  refine ensures_bind (orUndo_does (registerLinkedWorktree_calls (fun _ => Call.keepsRecords_of_plain) rfl rfl (fun _ _ => rfl)) (fun e => ?_)) (fun _ => At.steady Closed.top)
    (fun gitFile => ?_)
  · refine ensures_bind (ensures_ignore (main_keeps (removeAll_plain _).keepsRecords creating_closed)
      (At.steady creating_closed)) (fun _ => At.steady Closed.top) (fun _ => abandonCreation_does _)
  · refine ensures_bind (orUndo_does (calls_call rfl) (fun x => undoCreation_does _)) (fun _ => At.steady Closed.top)
      (fun _ => ?_)
    exact orUndo_does (writeFileDurably_plain _ _).keepsRecords (fun x => undoCreation_does _)

theorem activate_does {record : WorkspaceRecord} (hs : record.state = .active) (hn : record.name = name) :
    Ensures (hosts (recordFaults (.up m))) (mainContract tags) (At tags (Creating tags name id)) (activate paths record id)
      (fun _ => At tags (fun _ => True)) (fun _ => At tags (fun _ => True)) := by
  subst hn
  refine ensures_bind (orUndo_does (calls_call rfl) (fun x => undoCreation_does _)) (fun _ => At.steady Closed.top)
    (fun _ => ?_)
  refine ensures_bind (R := fun _ => At tags (Spare tags record.name id)) (ensures_orElseDo (main_save creating_closed spare_closed
    ?_ ?_ ?_) (fun _ => At.steady spare_closed) (fun x => undoCreation_does _)) (fun _ => At.steady Closed.top) (fun _ => ?_)
  · intro t _ h
    rw [hs] at h
    cases h
  · intro t _ h
    rw [hs] at h
    cases h
  · intro t hb
    refine ⟨hb, fun hst => ?_⟩
    rcases (hasState_save ..).mp hst with ⟨-, h⟩ | ⟨hne, -⟩
    · rw [hs] at h
      cases h
    · exact absurd rfl hne
  · exact ensures_stored dropSpare_does (fun _ => At.steady Closed.top) (fun _ => At.steady Closed.top) (fun _ _ h => h)

theorem createWorkspace_does (name requestedBranch : Bytes) :
    Ensures (hosts (recordFaults (.up m))) (mainContract tags) (At tags (fun _ => True)) (createWorkspace m name requestedBranch)
      (fun _ => At tags (fun _ => True)) (fun _ => At tags (fun _ => True)) := by
  have top : ∀ {β : Type} (_ : β), Steady (mainContract tags) (At tags (fun _ => True)) := fun _ => At.steady Closed.top
  refine ensures_bind (main_reads (calls_refuse _ _) Closed.top) top (fun _ => ?_)
  refine ensures_bind (main_reads (calls_refuse _ _) Closed.top) top (fun _ => ?_)
  refine ensures_bind (main_reads (loadWorkspaceRecord_reads _) Closed.top) top (fun existing => ?_)
  refine ensures_bind (main_reads (calls_refuse _ _) Closed.top) top (fun _ => ?_)
  refine ensures_bind (clock_does Closed.top) top (fun started => ?_)
  refine ensures_bind journalCreation_does top (fun id => ?_)
  refine ensures_bind (clock_does spare_closed) top (fun createdAt => ?_)
  refine ensures_bind (saveCreating_does rfl rfl) top (fun _ => ?_)
  refine ensures_bind createStorage_does top (fun _ => ?_)
  refine ensures_bind connectWorktree_does top (fun _ => ?_)
  refine ensures_bind (clock_does creating_closed) top (fun now => ?_)
  refine ensures_bind (activate_does rfl rfl) top (fun _ => ?_)
  exact main_reads (calls_bind (constructEngine_reads _ _) (fun _ => calls_pure _)) Closed.top

end create

/-! ## Removal -/

/-- The removal's journal record is pending, and younger than those of the jobs. -/
def Removing (tags : List Reclamation) (name : Name) (id : Nat) (t : Tables) : Prop :=
  (∀ j ∈ tags, j.id < id) ∧ t.Pending .workspaceRemove name id

/-- No Removed record of the name relies on the removal's journal record. -/
def Unused (tags : List Reclamation) (name : Name) (id : Nat) (t : Tables) : Prop :=
  Removing tags name id t ∧ ¬t.HasState name .removed

section remove

variable {tags : List Reclamation} {m : Manager} {name : Name} {id : Nat} {F : Faults} {B : Tables → Prop}

theorem removing_closed : Closed tags (Removing tags name id) := fun t t' ho h => ⟨h.1, closed_remove h.1 t t' ho h.2⟩

theorem unused_closed : Closed tags (Unused tags name id) := removing_closed.and (closed_not (by decide))

theorem Unused.droppable {t : Tables} (h : Unused tags name id t) (hg : Good t) : Droppable t id where
  create n hp := absurd (hg.keyed.pending_unique hp h.1.2).1 (by decide)
  remove n hp := by
    obtain ⟨-, rfl⟩ := hg.keyed.pending_unique hp h.1.2
    exact fun hs => absurd hs h.2

/-- What a read of a Workspace record tells. -/
theorem load_does {ε : Type} {B' : Option WorkspaceRecord → Tables → Prop} (hB : Closed tags B) (hB' : ∀ a, Closed tags (B' a))
    (hok : ∀ t, B t → t.Keyed → B' (t.loadWorkspaceRecord name) t)
    (herr : ∀ w, At tags B w → F.may (.loadWorkspaceRecord name) w → B' none w.store.visible) :
    Ensures (ε := ε) (hosts F) (mainContract tags) (At tags B) (loadWorkspaceRecord name) (fun a => At tags (B' a))
      (fun _ => At tags (fun _ => True)) := by
  refine ensures_answer (At.steady hB) (fun a => At.steady (hB' a)) (fun w r w' ha hs => ?_)
  rcases step_whole rfl hs with he | ⟨hmay, ⟨x, rfl⟩, rfl⟩
  · obtain ⟨rfl, rfl⟩ := Prod.mk.inj he
    exact ⟨⟨id, fun j _ => ⟨id, id⟩⟩, ha.kept, ha.below, hok _ ha.known ha.kept.visible.keyed⟩
  · exact ⟨⟨id, fun j _ => ⟨id, id⟩⟩, ha.kept, ha.below, herr w' ha hmay⟩

/-- A read record bears the name asked for, and an active one is not removed. -/
def ReadActive (name : Name) (a : Option WorkspaceRecord) (t : Tables) : Prop :=
  ∀ record, a = some record → record.name = name ∧ (record.state = .active → ¬t.HasState name .removed)

theorem readActive_closed (a : Option WorkspaceRecord) : Closed tags (ReadActive name a) :=
  fun t t' ho h record ha => ⟨(h record ha).1, fun hs => closed_not (by decide) t t' ho ((h record ha).2 hs)⟩

theorem readActive_load (t : Tables) (hk : t.Keyed) : ReadActive name (t.loadWorkspaceRecord name) t := by
  intro record hr
  refine ⟨(load_some hr).2, fun hs hrem => ?_⟩
  have := hk.state_unique (hasState_of_load hr) hrem
  rw [hs] at this
  cases this

/-- The unused journal record of a removal is dropped. -/
theorem dropUnused_does : Ensures (hosts F) (mainContract tags) (At tags (Unused tags name id))
    (Io.call (.abandonRecoveryOperation id)) (fun _ => At tags (fun _ => True)) (fun _ => At tags (fun _ => True)) := by
  intro w hw
  have hlt := hw.known.1.1
  exact (main_abandon unused_closed Closed.top (fun t hb hg => hb.droppable hg)
    (fun j hj => Nat.ne_of_lt (hlt j hj)) (fun _ _ => trivial)).mono (fun _ h => h) (fun _ _ h => h)
    (fun _ _ h => h.mono (fun _ _ => trivial)) w hw

theorem giveUpRemoval_does {α : Type} (e : LifecycleError) {Q : α → World → Prop} :
    Ensures (hosts F) (mainContract tags) (At tags (Unused tags name id)) (do
      (Io.call (.abandonRecoveryOperation id)).ignore
      Fallible.fail e) Q (fun _ => At tags (fun _ => True)) := by
  refine ensures_bind (ensures_ignore dropUnused_does (At.steady Closed.top)) (fun _ => At.steady Closed.top) (fun _ => ?_)
  exact ensures_fail (At.steady Closed.top) (fun _ h => h)

theorem removeActive_does (record : WorkspaceRecord) (started : Int) :
    Ensures (hosts F) (mainContract tags) (At tags (fun t => ¬t.HasState record.name .removed)) (removeActive m record started)
      (fun r => At tags (Removing tags record.name r.2)) (fun _ => At tags (fun _ => True)) := by
  have top : ∀ {β : Type} (_ : β), Steady (mainContract tags) (At tags (fun _ => True)) := fun _ => At.steady Closed.top
  have hnot : Closed tags (fun t => ¬t.HasState record.name .removed) := closed_not (by decide)
  refine ensures_bind (ensures_orElseDo (main_reads (calls_call rfl) hnot) (fun _ => At.steady hnot) (fun _ =>
    ensures_fail (At.steady hnot) (fun _ h => h.mono (fun _ _ => trivial)))) top (fun _ => ?_)
  refine ensures_bind (R := fun id => At tags (Unused tags record.name id)) ?_ top (fun id => ?_)
  · have hbegin := main_begin (F := F) {
      workspace := record.name, kind := .workspaceRemove, path := [record.name] } (Or.inr rfl) hnot (fun _ h => h)
    exact ensures_stored (hbegin.mono (fun _ h => h) (fun _ _ h => h.mono (fun t ht => ⟨⟨ht.1, ht.2.1⟩, ht.2.2.2⟩))
      (fun _ _ h => h)) (fun _ => At.steady unused_closed) (fun _ => At.steady hnot) (fun _ _ h => h.mono (fun _ _ => trivial))
  refine ensures_bind (ensures_onlyIf (At.steady unused_closed) (fun _ => giveUpRemoval_does _) (fun _ h _ => h)) top (fun _ => ?_)
  refine ensures_bind (clock_does unused_closed) top (fun now => ?_)
  refine ensures_bind (ensures_orElseDo (main_reads (calls_call rfl) unused_closed) (fun _ => At.steady unused_closed)
    (fun _ => giveUpRemoval_does _)) top (fun _ => ?_)
  refine ensures_bind (ensures_orElseDo (main_save unused_closed removing_closed (fun _ _ h => nomatch h)
    (fun t hb _ => ⟨id, hb.1⟩) (fun t hb => hb.1)) (fun _ => At.steady removing_closed) (fun _ => giveUpRemoval_does _)) top
    (fun _ => ?_)
  exact ensures_pure (At.steady removing_closed) (fun _ h => h)

theorem removeWorkspace_does (name : Bytes) :
    Ensures (hosts F) (mainContract tags) (At tags (fun _ => True)) (removeWorkspace m name)
      (fun r => At tags (Removing tags name r.2)) (fun _ => At tags (fun _ => True)) := by
  have top : ∀ {β : Type} (_ : β), Steady (mainContract tags) (At tags (fun _ => True)) := fun _ => At.steady Closed.top
  refine ensures_bind (clock_does Closed.top) top (fun started => ?_)
  refine ensures_bind (load_does Closed.top readActive_closed (fun t _ hk => readActive_load t hk)
    (fun _ _ _ record hr => nomatch hr)) top (fun a => ?_)
  cases a with
  | none => exact ensures_fail (At.steady (readActive_closed _)) (fun _ h => h.mono (fun _ _ => trivial))
  | some record =>
    refine ensures_bind (R := fun _ => At tags (fun t => record.name = name ∧ ¬t.HasState name .removed)) (ensures_refuse
      (At.steady (readActive_closed _)) (fun w hw hs => hw.mono (fun t ht => ?_)) (fun _ h _ => h.mono (fun _ _ => trivial)))
      top (fun _ => ?_)
    · obtain ⟨hn, hr⟩ := ht record rfl
      exact ⟨hn, hr (not_not.mp hs)⟩
    · intro w hw
      obtain ⟨rfl, -⟩ := hw.known
      exact removeActive_does record started w (hw.mono (fun _ ht => ht.2))

end remove

/-! ## Reclamation -/

/-- What a reclamation knows. -/
def JobAt (B : Tables → Prop) (w : World) : Prop := Kept w ∧ B w.store.visible

section reclamation

variable {j : Reclamation} {F : Faults} {B : Tables → Prop} {ε α : Type}

def JobClosed (j : Reclamation) (B : Tables → Prop) : Prop := ∀ t t', JobKept j t t' → B t → B t'

theorem JobAt.steady (h : JobClosed j B) : Steady (jobContract j) (JobAt B) :=
  ⟨fun _ _ ha hr => ⟨hr.1 ha.1, h _ _ hr.2 ha.2⟩, fun _ ha => ha.1⟩

/-- The removal's journal record is pending. -/
def Owned (j : Reclamation) (t : Tables) : Prop := t.Pending .workspaceRemove j.name j.id

theorem owned_closed : JobClosed j (Owned j) := fun _ _ hk hp => hk.pending hp

theorem ownedAbove_closed : JobClosed j (fun t => Owned j t ∧ Above t j.name j.id) :=
  fun _ _ hk hp => ⟨hk.pending hp.1, hk.above hp.2⟩

theorem job_keeps {p : Fallible ε α} (hp : Calls (·.keepsRecords = true) p) :
    Ensures (hosts F) (jobContract j) (JobAt (Owned j)) p (fun _ => JobAt (Owned j)) (fun _ => JobAt (Owned j)) := by
  refine ensures_kept hp (JobAt.steady owned_closed) (fun c w r w' hc ha hs => ?_)
  have hsame := step_same hc hs
  have hkept := ha.1.step hs (good_same hsame ha.1.visible)
  exact ⟨⟨fun _ => hkept, Others.of_same hsame⟩, hkept, (hsame.pending _ _ _).mpr ha.2⟩

/-- After the record is set to Reclaimed, a Removed record of the name is a later removal's. -/
theorem job_reclaimed : Ensures (hosts F) (jobContract j) (JobAt (Owned j)) (Io.call (.setWorkspaceState j.name .reclaimed))
    (fun _ => JobAt (fun t => Owned j t ∧ Above t j.name j.id)) (fun _ => JobAt (Owned j)) := by
  refine ensures_call (JobAt.steady owned_closed) (fun _ => JobAt.steady ownedAbove_closed) (fun _ => JobAt.steady owned_closed)
    (fun w r w' ha hs => ?_)
  rcases step_whole rfl hs with he | ⟨-, ⟨x, rfl⟩, rfl⟩
  · obtain ⟨rfl, rfl⟩ := Prod.mk.inj he
    have hv := Store.visible_update w.store (·.setWorkspaceState j.name .reclaimed)
    have hkept := ha.1.step hs (by rw [hv]; exact good_reclaimed _ ha.1.visible)
    refine ⟨⟨fun _ => hkept, by rw [hv]; exact others_reclaimed _ _⟩, hkept, ?_⟩
    rw [hv]
    refine ⟨ha.2, fun hst => ?_⟩
    rcases (hasState_setState ..).mp hst with ⟨hne, -⟩ | ⟨-, h, -⟩
    · exact absurd rfl hne
    · cases h
  · exact ⟨⟨id, Others.refl _⟩, ha⟩

theorem owned_droppable {t : Tables} (hp : Owned j t) (ha : Above t j.name j.id) (hg : Good t) : Droppable t j.id where
  create n hc := absurd (hg.keyed.pending_unique hc hp).1 (by decide)
  remove n hr := by
    obtain ⟨-, rfl⟩ := hg.keyed.pending_unique hr hp
    exact ha

theorem job_abandon : Ensures (hosts F) (jobContract j) (JobAt (fun t => Owned j t ∧ Above t j.name j.id))
    (Io.call (.abandonRecoveryOperation j.id)) (fun _ => Kept) (fun _ => Kept) := by
  have hkept : Steady (jobContract j) Kept := ⟨fun _ _ hk hr => hr.1 hk, fun _ hk => hk⟩
  refine ensures_call (JobAt.steady ownedAbove_closed) (fun _ => hkept) (fun _ => hkept) (fun w r w' ha hs => ?_)
  rcases step_whole rfl hs with he | ⟨-, ⟨x, rfl⟩, rfl⟩
  · obtain ⟨rfl, rfl⟩ := Prod.mk.inj he
    have hv := Store.visible_update w.store (·.abandonRecoveryOperation j.id)
    have hg := ha.1.visible
    have hd := owned_droppable ha.2.1 ha.2.2 hg
    have hkept' := ha.1.step hs (by rw [hv]; exact good_abandon hd hg)
    refine ⟨⟨fun _ => hkept', ?_⟩, hkept'⟩
    rw [hv]
    exact others_abandon hd (fun _ _ => rfl) (fun n hc => absurd (hg.keyed.pending_unique hc ha.2.1).1 (by decide))
  · exact ⟨⟨id, Others.refl _⟩, ha.1⟩

theorem ensures_detailed {S : Semantics Call Errno World} {C : Contract World} {P R : World → Prop} {Q : α → World → Prop}
    {p : Io α} {f : Errno → RecoveryDetail} (hp : Ensures S C P p Q (fun _ => R)) (hQ : ∀ a, Steady C (Q a)) (hR : Steady C R) :
    Ensures S C P (detailed p f) Q (fun _ => R) :=
  ensures_orElseDo hp hQ (fun _ => ensures_fail hR (fun _ h => h))

theorem reclaimWorkspace_does : Ensures (hosts F) (jobContract j) (JobAt (Owned j)) (reclaimWorkspace j.paths j.name j.id)
    (fun _ => Kept) (fun _ => Kept) := by
  have kept : ∀ {β : Type} (_ : β), Steady (jobContract j) Kept := fun _ => ⟨fun _ _ hk hr => hr.1 hk, fun _ hk => hk⟩
  have owned : ∀ {β : Type} (_ : β), Steady (jobContract j) (JobAt (Owned j)) := fun _ => JobAt.steady owned_closed
  have step : ∀ {β : Type} {p : Fallible RecoveryDetail β}, Calls (·.keepsRecords = true) p →
      Ensures (hosts F) (jobContract j) (JobAt (Owned j)) p (fun _ => JobAt (Owned j)) (fun _ => Kept) :=
    fun hp => (job_keeps hp).mono (fun _ h => h) (fun _ _ h => h) (fun _ _ h => h.1)
  refine ensures_bind (step (calls_detailed (calls_call rfl))) kept (fun started => ?_)
  refine ensures_bind (step (unregisterLinkedWorktree_calls (fun _ => Call.keepsRecords_of_plain) rfl)) kept (fun _ => ?_)
  refine ensures_bind (step (calls_detailed (removeAll_plain _).keepsRecords)) kept (fun _ => ?_)
  refine ensures_bind (step (calls_detailed (calls_call rfl))) kept (fun _ => ?_)
  refine ensures_bind (step (calls_detailed (calls_call rfl))) kept (fun _ => ?_)
  refine ensures_bind (step (calls_detailed (calls_call rfl))) kept (fun now => ?_)
  refine ensures_bind (step (calls_detailed (calls_call rfl))) kept (fun _ => ?_)
  refine ensures_bind (ensures_detailed (job_reclaimed.mono (fun _ h => h) (fun _ _ h => h) (fun _ _ h => h.1))
    (fun _ => JobAt.steady ownedAbove_closed) (kept ())) kept (fun _ => ?_)
  exact ensures_detailed job_abandon kept (kept ())

end reclamation

end RecordsAux

end TribiosVfs
